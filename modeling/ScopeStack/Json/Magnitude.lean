/-!
# Magnitudes of numbers

A number that is not an integer of 64 bits is held in double precision. Its
leading digits, as many as fit 64 bits, form a significand, and the rest of the
numeral only contributes a power of ten. The significand and the power are each
rounded to double precision before they are multiplied, so a numeral close to
the largest double may be out of range although it would round to that double
if it were taken as a whole.
-/

namespace ScopeStack.Json

/-- The nearest number of 53 significant bits; of two that are equally near,
the one whose last bit is zero. -/
def roundToDouble (value : Nat) : Nat :=
  let unit := 1 <<< (value.log2 - 52)
  let below := value / unit
  let rest := value % unit
  if unit < 2 * rest ∨ (2 * rest = unit ∧ below % 2 = 1) then (below + 1) * unit
  else below * unit

/-- The number `significand * 10 ^ exponent`. -/
structure Magnitude where
  significand : Nat
  exponent : Int
deriving DecidableEq, Repr

namespace Magnitude

/-- The value of a decimal digit. -/
def digitValue (digit : Char) : Nat := digit.toNat - '0'.toNat

/-- Append digits before the decimal point to a significand. From the first one
that does not fit on, each digit only counts as a power of ten. -/
def ofWhole (significand : Nat) : List Char → Magnitude
  | [] => ⟨significand, 0⟩
  | digit :: rest =>
    if significand * 10 + digitValue digit < 1 <<< 64 then
      ofWhole (significand * 10 + digitValue digit) rest
    else ⟨significand, rest.length + 1⟩

/-- Append digits after the decimal point. From the first one that does not fit
on, digits do not count. -/
def withPlaces (magnitude : Magnitude) : List Char → Magnitude
  | [] => magnitude
  | digit :: rest =>
    if magnitude.significand * 10 + digitValue digit < 1 <<< 64 then
      withPlaces
        ⟨magnitude.significand * 10 + digitValue digit, magnitude.exponent - 1⟩ rest
    else magnitude

/-- The magnitude of a numeral with given digits before and after the decimal
point and a given exponent. -/
def ofNumeral (whole places : List Char) (exponent : Int) : Magnitude :=
  let magnitude := (ofWhole 0 whole).withPlaces places
  ⟨magnitude.significand, magnitude.exponent + exponent⟩

/-- The greatest power of ten in double precision. -/
def maxExponent : Int := 308

/-- Numbers from here on round beyond the largest double. -/
def infinity : Nat := 1 <<< 1024 - 1 <<< 970

/-- The magnitude is in the range of double precision. -/
def isFinite (magnitude : Magnitude) : Bool :=
  magnitude.significand == 0 || magnitude.exponent < 0 ||
    (magnitude.exponent ≤ maxExponent &&
      roundToDouble magnitude.significand * roundToDouble (Nat.pow 10 magnitude.exponent.toNat) <
        infinity)

end Magnitude

end ScopeStack.Json
