import ScopeStack.Word

/-!
# Signed decimal numerals

Numbers are written in decimal with a minus sign where needed. The reader
takes one optional sign and at least one digit; leading zeros are allowed, and
the digits are those of ASCII alone.
-/

namespace ScopeStack.Decimal

/-- The decimal text of an integer. -/
def render : Int → List Char
  | .ofNat magnitude => Nat.toDigits 10 magnitude
  | .negSucc predecessor => '-' :: Nat.toDigits 10 (predecessor + 1)

/-- The decimal text of an integer, as a string. -/
def text (value : Int) : String := String.ofList (render value)

/-- The value of a non-empty sequence of digits. -/
def natural? (digits : List Char) : Option Nat :=
  if digits.isEmpty || !digits.all Char.isDigit then none
  else some (Nat.ofDigitChars 10 digits 0)

/-- The value of an optionally signed numeral. -/
def integer? : List Char → Option Int
  | '+' :: digits => (natural? digits).map fun magnitude => (magnitude : Int)
  | '-' :: digits => (natural? digits).map fun magnitude => -(magnitude : Int)
  | digits => (natural? digits).map fun magnitude => (magnitude : Int)

/-- The value of a numeral that denotes a machine word. -/
def word? (numeral : List Char) : Option Int :=
  (integer? numeral).filter fun value => decide (Word.Fits value)

end ScopeStack.Decimal
