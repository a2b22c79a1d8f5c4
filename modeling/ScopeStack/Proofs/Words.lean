import ScopeStack.Word

/-!
# Words as integers

An integer that fits in a word survives becoming one, and adding words adds the
integers that they come from.
-/

namespace ScopeStack.Word

/-- An integer that fits is the value of its word. -/
theorem toInt_ofInt {value : Int} (fits : Fits value) : (ofInt value).toInt = value :=
  Int32.toInt_ofInt_of_le fits.1 (by have := fits.2; omega)

/-- The value of a word fits. -/
theorem fits_toInt (word : Word) : Fits word.toInt := by
  have low := word.le_toInt
  have high := word.toInt_lt
  exact ⟨by omega, by omega⟩

/-- A word is the word of its value. -/
@[simp] theorem ofInt_toInt (word : Word) : ofInt word.toInt = word := Int32.ofInt_toInt word

/-- Addresses are computed by wrapping addition, which loses nothing that the
sum does not lose. -/
theorem ofInt_add (first second : Int) : ofInt first + ofInt second = ofInt (first + second) :=
  (Int32.ofInt_add first second).symm

/-- All bytes of the zero word are zero. -/
theorem byte_zero (index : Nat) : byte 0 index = 0 := by
  rw [byte, show bits 0 = 0 from rfl, Nat.zero_shiftRight]
  rfl

end ScopeStack.Word
