/-!
# Hexadecimal digits

Digits of either case are read; those above nine are written in upper case.
-/

namespace ScopeStack.Hexadecimal

/-- The value of a digit. -/
def value? (digit : Char) : Option Nat :=
  if '0' ≤ digit ∧ digit ≤ '9' then some (digit.toNat - '0'.toNat)
  else if 'a' ≤ digit ∧ digit ≤ 'f' then some (digit.toNat - 'a'.toNat + 10)
  else if 'A' ≤ digit ∧ digit ≤ 'F' then some (digit.toNat - 'A'.toNat + 10)
  else none

/-- The digit of a number below sixteen. -/
def digit (value : Nat) : Char :=
  if value < 10 then Char.ofNat ('0'.toNat + value) else Char.ofNat ('A'.toNat + (value - 10))

/-- Every digit that is written can be read. -/
theorem value?_digit {value : Nat} (small : value < 16) : value? (digit value) = some value := by
  have all : ∀ number : Fin 16, value? (digit number.val) = some number.val := by decide
  exact all ⟨value, small⟩

end ScopeStack.Hexadecimal
