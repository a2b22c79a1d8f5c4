import ScopeStack.Machine.Memory

/-!
# What operations on memory leave alone

`Memory.Intact` says that given bytes of memory are what they were, and
`Memory.Put` that nothing but one word has changed. Both speak of bytes, so that
words which do not overlap with a change keep their value. `Memory.WordsAt` says
which words lie one after another.
-/

namespace ScopeStack.Memory

/-- Two ranges of bytes do not overlap. -/
def Apart (first firstLength second secondLength : Int) : Prop :=
  first + firstLength ≤ second ∨ second + secondLength ≤ first

/-- Two ranges of bytes have no byte in common. Other than `Apart` this lets an empty range lie
inside the other one. -/
def Separate (first firstLength second secondLength : Int) : Prop :=
  ∀ address, first ≤ address → address < first + firstLength →
    ¬(second ≤ address ∧ address < second + secondLength)

/-- Two ranges have no byte in common if one of them is empty or they lie apart. -/
theorem separate_iff {first firstLength second secondLength : Int} :
    Separate first firstLength second secondLength ↔
      firstLength ≤ 0 ∨ secondLength ≤ 0 ∨ Apart first firstLength second secondLength := by
  rw [Apart]
  constructor
  · intro separate
    -- of two ranges with bytes, the one that starts later starts outside the other
    have later := separate (max first second)
    omega
  · intro cases address
    omega

/-- Ranges that lie apart have no byte in common. -/
theorem Apart.separate {first firstLength second secondLength : Int}
    (apart : Apart first firstLength second secondLength) :
    Separate first firstLength second secondLength :=
  separate_iff.mpr (.inr (.inr apart))

/-- Lying apart is symmetric. -/
theorem Apart.symm {first firstLength second secondLength : Int}
    (apart : Apart first firstLength second secondLength) :
    Apart second secondLength first firstLength :=
  Or.symm apart

/-- Memory of the same extent in which the bytes of a set are what they
were. -/
structure Intact (fixed : Int → Prop) (before after : Memory) : Prop where
  size : after.size = before.size
  codeSize : after.codeSize = before.codeSize
  byte : ∀ address, fixed address → after.byte address = before.byte address

namespace Intact

variable {fixed : Int → Prop} {before middle after : Memory}

/-- Memory is intact if nothing happens. -/
theorem refl (fixed : Int → Prop) (memory : Memory) : Intact fixed memory memory :=
  ⟨rfl, rfl, fun _ _ => rfl⟩

/-- Memory that is intact after each of two changes is intact after both. -/
theorem trans (first : Intact fixed before middle) (second : Intact fixed middle after) :
    Intact fixed before after where
  size := second.size.trans first.size
  codeSize := second.codeSize.trans first.codeSize
  byte address inside := (second.byte address inside).trans (first.byte address inside)

/-- Fewer bytes are intact if all of them are. -/
theorem mono {fewer : Int → Prop} (intact : Intact fixed before after)
    (within : ∀ address, fewer address → fixed address) : Intact fewer before after :=
  ⟨intact.size, intact.codeSize, fun address inside => intact.byte address (within address inside)⟩

/-- A word all of whose bytes are in the set. -/
theorem word (intact : Intact fixed before after) {address : Int}
    (inside : ∀ index, address ≤ index → index < address + 4 → fixed index) :
    after.word address = before.word address :=
  word_congr fun index first last => intact.byte index (inside index first last)

end Intact

/-- Memory in which at most the bytes of a range have changed. -/
abbrev Outside (start stop : Int) (before after : Memory) : Prop :=
  Intact (fun address => address < start ∨ stop ≤ address) before after

/-- Memory in which one word has been replaced. -/
structure Put (before : Memory) (address : Int) (value : Word) (after : Memory) : Prop where
  outside : Outside address (address + 4) before after
  word : after.word address = value

namespace Put

variable {before after : Memory} {address : Int} {value : Word}

/-- Setting a word replaces it. -/
theorem setWord (memory : Memory) (address : Int) (value : Word) :
    Put memory address value (memory.setWord address value) where
  outside := ⟨rfl, rfl, fun other apart => by rw [byte_setWord, if_neg (by omega)]⟩
  word := word_setWord memory address value

/-- A word that does not overlap with the one that has been replaced. -/
theorem other (put : Put before address value after) {other : Int}
    (apart : other + 4 ≤ address ∨ address + 4 ≤ other) : after.word other = before.word other :=
  put.outside.word fun index first last => by omega

/-- What a set without the word contains is intact. -/
theorem intact (put : Put before address value after) {fixed : Int → Prop}
    (apart : ∀ index, fixed index → index < address ∨ address + 4 ≤ index) :
    Intact fixed before after :=
  put.outside.mono apart

end Put

/-- A word of zero bytes is zero. -/
theorem word_eq_zero {memory : Memory} {address : Int}
    (zero : ∀ index, address ≤ index → index < address + 4 → memory.byte index = 0) :
    memory.word address = 0 := by
  rw [word, zero address (by omega) (by omega), zero (address + 1) (by omega) (by omega),
    zero (address + 2) (by omega) (by omega), zero (address + 3) (by omega) (by omega)]
  rfl

/-- Words lie one after another from an address on. -/
def WordsAt (memory : Memory) : Int → List Int → Prop
  | _, [] => True
  | address, word :: rest => memory.word address = Word.ofInt word ∧ memory.WordsAt (address + 4) rest

/-- Two lists of words lie one after the other. -/
theorem wordsAt_append {memory : Memory} {address : Int} {first second : List Int} :
    memory.WordsAt address (first ++ second) ↔
      memory.WordsAt address first ∧ memory.WordsAt (address + 4 * first.length) second := by
  induction first generalizing address with
  | nil => simp [WordsAt]
  | cons word rest hypothesis =>
    have next : address + 4 + 4 * (rest.length : Int) =
        address + 4 * ((word :: rest).length : Int) := by
      rw [List.length_cons]
      omega
    rw [List.cons_append, WordsAt, hypothesis, next, WordsAt, and_assoc]

/-- Words that are intact stay where they are. -/
theorem WordsAt.intact {fixed : Int → Prop} {before after : Memory} {address : Int}
    {words : List Int} (held : before.WordsAt address words) (intact : Intact fixed before after)
    (inside : ∀ index, address ≤ index → index < address + 4 * words.length → fixed index) :
    after.WordsAt address words := by
  induction words generalizing address with
  | nil => trivial
  | cons word rest hypothesis =>
    rw [List.length_cons] at inside
    refine ⟨(intact.word fun index first last => inside index first (by omega)).trans held.1, ?_⟩
    exact hypothesis held.2 fun index first last => inside index (by omega) (by omega)

/-- Follow access links from a frame. -/
def follow (memory : Memory) : Nat → Int → Int
  | 0, base => base
  | hops + 1, base => memory.follow hops (memory.word base).toInt

end ScopeStack.Memory
