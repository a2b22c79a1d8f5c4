import Mathlib.Data.List.Induction
import ScopeStack.Proofs.Machine.Memory

/-!
# Histories of memory

Memory is asked to read a word, to write one or to clear a range, any number of
times. A request that cannot be carried out fails and leaves memory as it is, so
the extent of memory never changes, and each byte is the one that the last
successful request to write there has left (`Memory.byte_performAll`). What is
read after a store or after clearing follows from the bytes.
-/

namespace ScopeStack

namespace Memory

/-- A request to memory. -/
inductive Request where
  | load (address : Int)
  | store (address : Int) (value : Word)
  | clear (address : Int) (length : Nat)
deriving DecidableEq, Repr

namespace Request

/-- The address of the first byte that a request concerns. -/
def address : Request → Int
  | .load address => address
  | .store address _ => address
  | .clear address _ => address

/-- The number of bytes that a request concerns. -/
def length : Request → Nat
  | .load _ => 4
  | .store _ _ => 4
  | .clear _ length => length

/-- The byte that a request leaves at an address, if it writes there. -/
def written : Request → Int → Option UInt8
  | .load _, _ => none
  | .store address value, index =>
    if address ≤ index ∧ index < address + 4 then some (Word.byte value (index - address).toNat)
    else none
  | .clear address length, index =>
    if address ≤ index ∧ index < address + length then some 0 else none

end Request

/-- Memory can carry out a request. -/
def Serves (memory : Memory) (request : Request) : Prop :=
  memory.Addressable request.address request.length

instance (memory : Memory) (request : Request) : Decidable (memory.Serves request) :=
  inferInstanceAs (Decidable (memory.Addressable _ _))

/-- Go on with the result of a change, or with memory as it is if there is
none. -/
def settle (memory : Memory) : Except Fault Memory → Except Fault (Option Word) × Memory
  | .ok changed => (.ok none, changed)
  | .error fault => (.error fault, memory)

/-- Carry out a request: the answer, with the word that has been read, and memory
afterwards. -/
def perform (memory : Memory) : Request → Except Fault (Option Word) × Memory
  | .load address => ((memory.load address).map some, memory)
  | .store address value => memory.settle (memory.store address value)
  | .clear address length => memory.settle (memory.clear address length)

/-- Memory after a history of requests. -/
def performAll (memory : Memory) (history : List Request) : Memory :=
  history.foldl (fun memory request => (memory.perform request).2) memory

/-- The word that a request reads. -/
def answer (memory : Memory) : Request → Option Word
  | .load address => some (memory.word address)
  | .store _ _ => none
  | .clear _ _ => none

/-- Memory after a request that has been carried out. -/
def apply (memory : Memory) : Request → Memory
  | .load _ => memory
  | .store address value => memory.setWord address value
  | .clear address length => memory.zeroRange address length

variable {memory before after : Memory} {request : Request}

/-- A request is carried out, or it fails at its own address and changes
nothing. -/
theorem perform_eq (memory : Memory) (request : Request) :
    memory.perform request =
      if memory.Serves request then (.ok (memory.answer request), memory.apply request)
      else (.error (.memoryFault request.address), memory) := by
  cases request with
  | load address =>
    change _ = if memory.Addressable address 4 then _ else _
    rw [perform, load]
    split <;> rfl
  | store address value =>
    change _ = if memory.Addressable address 4 then _ else _
    rw [perform, store]
    split <;> rfl
  | clear address length =>
    change _ = if memory.Addressable address length then _ else _
    rw [perform, clear]
    split <;> rfl

/-- A request that is carried out writes its own bytes and no others. -/
theorem byte_apply (memory : Memory) (request : Request) (index : Int) :
    (memory.apply request).byte index = (request.written index).getD (memory.byte index) := by
  cases request with
  | load address => rfl
  | store address value =>
    rw [apply, byte_setWord, Request.written]
    split <;> rfl
  | clear address length =>
    rw [apply, byte_zeroRange, Request.written]
    split <;> rfl

/-- No request changes the extent of memory. -/
theorem extent_perform (memory : Memory) (request : Request) :
    (memory.perform request).2.size = memory.size ∧
      (memory.perform request).2.codeSize = memory.codeSize := by
  rw [perform_eq]
  split
  · cases request with
    | load address => exact ⟨rfl, rfl⟩
    | store address value =>
      exact ⟨size_setWord memory address value, codeSize_setWord memory address value⟩
    | clear address length =>
      exact ⟨size_zeroRange memory address length, codeSize_zeroRange memory address length⟩
  · exact ⟨rfl, rfl⟩

/-- The last request is carried out after all others. -/
theorem performAll_concat (memory : Memory) (history : List Request) (request : Request) :
    memory.performAll (history ++ [request]) = ((memory.performAll history).perform request).2 := by
  rw [performAll, List.foldl_append]
  rfl

/-- No history changes the extent of memory. -/
theorem extent_performAll (memory : Memory) (history : List Request) :
    (memory.performAll history).size = memory.size ∧
      (memory.performAll history).codeSize = memory.codeSize := by
  induction history using List.reverseRecOn with
  | nil => exact ⟨rfl, rfl⟩
  | append_singleton history request hypothesis =>
    rw [performAll_concat]
    have same := (memory.performAll history).extent_perform request
    exact ⟨same.1.trans hypothesis.1, same.2.trans hypothesis.2⟩

/-- Which requests are carried out does not depend on those before. -/
theorem serves_performAll {history : List Request} :
    (memory.performAll history).Serves request ↔ memory.Serves request := by
  obtain ⟨size, codeSize⟩ := memory.extent_performAll history
  rw [Serves, Serves, Addressable, Addressable, size, codeSize]

/-- The byte that the last of the requests that memory carries out has left at an
address, or the one that was there before all of them. -/
def lastWritten (memory : Memory) (history : List Request) (index : Int) : UInt8 :=
  ((history.reverse.filter (memory.Serves ·)).findSome? (·.written index)).getD (memory.byte index)

/-- Each byte is the one that has been written last. -/
theorem byte_performAll (memory : Memory) (history : List Request) (index : Int) :
    (memory.performAll history).byte index = memory.lastWritten history index := by
  -- The latest request is at the end of the history, where it is taken apart.
  induction history using List.reverseRecOn with
  | nil => rfl
  | append_singleton history request hypothesis =>
    rw [performAll_concat, perform_eq, lastWritten, List.reverse_concat, List.filter_cons]
    by_cases serves : memory.Serves request
    · rw [if_pos (serves_performAll.mpr serves), byte_apply, hypothesis, lastWritten,
        if_pos (decide_eq_true serves), List.findSome?_cons]
      cases request.written index with
      | none => rfl
      | some byte => rfl
    · rw [if_neg (mt serves_performAll.mp serves), if_neg (by simpa using serves)]
      exact hypothesis

/-- What loading gives depends on the extent of memory and the word that is
loaded. -/
theorem load_congr {address : Int} (size : after.size = before.size)
    (codeSize : after.codeSize = before.codeSize)
    (word : after.word address = before.word address) :
    after.load address = before.load address := by
  have extent : after.Addressable address 4 ↔ before.Addressable address 4 := by
    rw [Addressable, Addressable, size, codeSize]
  by_cases readable : before.Addressable address 4
  · rw [load, load, if_pos readable, if_pos (extent.mpr readable), word]
  · rw [load, load, if_neg readable, if_neg (mt extent.mp readable)]

/-- The byte at an index once a word has been stored at an address. -/
def overlaid (memory : Memory) (address : Int) (value : Word) (index : Int) : UInt8 :=
  if address ≤ index ∧ index < address + 4 then Word.byte value (index - address).toNat
  else memory.byte index

/-- What is read after a word has been stored: at its own address the word, at
four bytes' distance what was there, and between them the bytes of both. -/
structure Stored (before : Memory) (address : Int) (value : Word) (after : Memory) : Prop where
  same : after.load address = .ok value
  apart : ∀ other, 4 ≤ (address - other).natAbs → after.load other = before.load other
  overlapping : ∀ other, before.Addressable other 4 →
    let byte := before.overlaid address value
    after.load other =
      .ok (Word.ofBytes (byte other) (byte (other + 1)) (byte (other + 2)) (byte (other + 3)))

/-- What is read after a word has been stored. -/
theorem stored_of_store {address : Int} {value : Word}
    (stored : before.store address value = .ok after) : before.Stored address value after := by
  rw [store] at stored
  split at stored
  next writable =>
    obtain rfl := Except.ok.inj stored
    have put := Put.setWord before address value
    refine ⟨?_, fun other far => ?_, fun other readable => ?_⟩
    · exact (if_pos writable).trans (congrArg Except.ok put.word)
    · exact load_congr put.outside.size put.outside.codeSize (put.other (by omega))
    · refine (if_pos readable).trans ?_
      simp only [word, byte_setWord, overlaid]
  next => cases stored

/-- What is read after a range has been cleared: zero inside of it and what was
there outside. -/
structure Cleared (before : Memory) (address : Int) (length : Nat) (after : Memory) : Prop where
  inside : ∀ other, address ≤ other → other + 4 ≤ address + length → after.load other = .ok 0
  outside : ∀ other,
    (∀ index, address ≤ index → index < address + length → index < other ∨ other + 4 ≤ index) →
    after.load other = before.load other

/-- What is read after a range has been cleared. -/
theorem cleared_of_clear {address : Int} {length : Nat}
    (cleared : before.clear address length = .ok after) : before.Cleared address length after := by
  rw [clear] at cleared
  split at cleared
  next writable =>
    obtain rfl := Except.ok.inj cleared
    obtain ⟨low, high⟩ := writable
    refine ⟨fun other first last => ?_, fun other disjoint => load_congr rfl rfl ?_⟩
    · have readable : (before.zeroRange address length).Addressable other 4 :=
        ⟨Int.le_trans low first, Int.le_trans last high⟩
      refine (if_pos readable).trans (congrArg Except.ok (word_eq_zero fun index start stop => ?_))
      rw [byte_zeroRange, if_pos (by omega)]
    · refine word_congr fun index first last => ?_
      rw [byte_zeroRange, if_neg]
      rintro ⟨start, stop⟩
      rcases disjoint index start stop with low | high <;> omega
  next => cases cleared

/-- Clearing a range with a signed length that is not negative. -/
theorem clearRange_of_nonneg {address length : Int} (nonneg : 0 ≤ length) :
    memory.clearRange address length =
      (memory.clear address length.toNat).mapError RangeError.fault := by
  rw [clearRange, clear, Int.toNat_of_nonneg nonneg]
  split
  next => rfl
  next inside =>
    rw [if_neg (by omega), if_pos (Decidable.not_not.mp inside)]
    rfl

end Memory

/-- The laws of memory, after any history of requests. A request succeeds if and
only if all its bytes lie behind the code and inside memory; otherwise it fails
at its address and changes nothing. A word that is stored is read back, words
apart from it are what they were, and those that overlap with it are made of the
bytes of both. A range that is cleared reads as zero, and words outside of it are
what they were. Every byte is the one that was written last.

The end of a range inside memory fits in a word if the size of memory does, so
that it makes no difference whether it is computed with words. -/
theorem memory_laws (memory : Memory) (history : List Memory.Request) :
    let current := memory.performAll history
    (∀ request : Memory.Request,
      let inside :=
        memory.codeSize ≤ request.address ∧ request.address + request.length ≤ memory.size
      ((∃ answer, (current.perform request).1 = .ok answer) ↔ inside) ∧
        (¬inside → current.perform request = (.error (.memoryFault request.address), current)) ∧
        (0 ≤ memory.codeSize → Word.Fits memory.size → inside →
          Word.Fits (request.address + request.length))) ∧
    (∀ address value after, current.store address value = .ok after →
      current.Stored address value after) ∧
    (∀ address length after, current.clear address length = .ok after →
      current.Cleared address length after) ∧
    (∀ address length : Int, 0 ≤ length →
      current.clearRange address length =
        (current.clear address length.toNat).mapError Memory.RangeError.fault) ∧
    ∀ index, current.byte index = memory.lastWritten history index := by
  intro current
  refine ⟨fun request => ?_, fun _ _ _ => Memory.stored_of_store,
    fun _ _ _ => Memory.cleared_of_clear, fun _ _ => Memory.clearRange_of_nonneg,
    memory.byte_performAll history⟩
  intro inside
  have serves : current.Serves request ↔ inside := Memory.serves_performAll
  rw [Memory.perform_eq]
  by_cases within : inside
  · rw [if_pos (serves.mpr within)]
    refine ⟨⟨fun _ => within, fun _ => ⟨_, rfl⟩⟩, fun outside => absurd within outside, ?_⟩
    rintro code ⟨-, size⟩ ⟨low, high⟩
    exact ⟨by omega, by omega⟩
  · rw [if_neg (mt serves.mp within)]
    refine ⟨⟨?_, fun inside => absurd inside within⟩, fun _ => rfl,
      fun _ _ inside => absurd inside within⟩
    rintro ⟨_, answered⟩
    cases answered

-- The second store is refused, and what is cleared is one byte of the first word.
example : ((Memory.zero 64 4).performAll [.store 8 0x01020304, .store 2 7, .clear 10 1]).load 7 =
    .ok 0x00030400 := by
  decide +kernel

end ScopeStack
