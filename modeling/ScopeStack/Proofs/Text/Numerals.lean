import Mathlib.Tactic.Ring
import ScopeStack.Text.Decimal

/-!
# The grammar of decimal numerals

A numeral is written with an optional sign and at least one digit, and denotes
a number by the places of its digits. Reading accepts exactly the spellings of
numerals, and gives the number that they denote; so it reads back whatever is
written.
-/

namespace ScopeStack.Decimal

/-- The sign in front of a numeral. -/
inductive Sign where
  | plus
  | minus
deriving DecidableEq, Repr

/-- A sign as it is written. -/
def Sign.char : Sign → Char
  | .plus => '+'
  | .minus => '-'

/-- A sign in front of a number. -/
def Sign.apply : Sign → Nat → Int
  | .plus, magnitude => magnitude
  | .minus, magnitude => -magnitude

/-- A decimal numeral, whose most significant digit comes first. -/
structure Numeral where
  sign : Option Sign
  digits : List (Fin 10)
  nonempty : digits ≠ []
deriving DecidableEq, Repr

/-- Digits as they are written. -/
def spellDigits (digits : List (Fin 10)) : List Char := digits.map fun digit => digit.val.digitChar

/-- The number that digits denote: each counts for the power of ten of its
place. -/
def magnitude : List (Fin 10) → Nat
  | [] => 0
  | digit :: rest => digit * 10 ^ rest.length + magnitude rest

/-- A numeral as it is written. -/
def Numeral.spelling (numeral : Numeral) : List Char :=
  (numeral.sign.map Sign.char).toList ++ spellDigits numeral.digits

/-- The number that a numeral denotes. -/
def Numeral.value (numeral : Numeral) : Int :=
  (numeral.sign.getD .plus).apply (magnitude numeral.digits)

/-- A numeral has a character at least. -/
theorem spelling_ne_nil (numeral : Numeral) : numeral.spelling ≠ [] := by
  simp [Numeral.spelling, spellDigits, numeral.nonempty]

/-- Going through the digits from left to right gives the number that they
denote. -/
theorem ofDigitChars_spellDigits (digits : List (Fin 10)) (initial : Nat) :
    Nat.ofDigitChars 10 (spellDigits digits) initial =
      initial * 10 ^ digits.length + magnitude digits := by
  induction digits generalizing initial with
  | nil => simp [spellDigits, magnitude]
  | cons digit rest hypothesis =>
    have step : Nat.ofDigitChars 10 (spellDigits (digit :: rest)) initial =
        Nat.ofDigitChars 10 (spellDigits rest) (10 * initial + digit) :=
      Nat.ofDigitChars_cons_digitChar_of_lt_ten digit.isLt
    rw [step, hypothesis, magnitude, List.length_cons]
    ring

/-- The characters that are written for digits are the decimal digits. -/
theorem isDigit_iff {char : Char} :
    char.isDigit ↔ ∃ digit : Fin 10, digit.val.digitChar = char := by
  constructor
  · intro isDigit
    obtain ⟨low, high⟩ := Char.isDigit_iff_toNat.mp isDigit
    have bounds : 48 ≤ char.toNat ∧ char.toNat ≤ 57 := ⟨low, high⟩
    have small : char.toNat - 48 < 10 := by omega
    refine ⟨⟨char.toNat - 48, small⟩, Char.toNat_inj.mp ?_⟩
    rw [Nat.toNat_digitChar_of_lt_ten small]
    omega
  · rintro ⟨digit, rfl⟩
    simp [Nat.isDigit_digitChar]

/-- Characters that are digits spell digits. -/
theorem all_isDigit_iff {chars : List Char} :
    chars.all Char.isDigit ↔ ∃ digits, spellDigits digits = chars := by
  induction chars with
  | nil => simp [spellDigits]
  | cons char rest hypothesis =>
    rw [List.all_cons, Bool.and_eq_true, hypothesis, isDigit_iff]
    constructor
    · rintro ⟨⟨digit, rfl⟩, digits, rfl⟩
      exact ⟨digit :: digits, rfl⟩
    · rintro ⟨_ | ⟨digit, digits⟩, spelled⟩
      · cases spelled
      · cases spelled
        exact ⟨⟨digit, rfl⟩, digits, rfl⟩

/-- A sequence of characters is read as a natural number if it spells digits. -/
theorem natural?_eq_some_iff {chars : List Char} {number : Nat} :
    natural? chars = some number ↔
      ∃ digits, digits ≠ [] ∧ spellDigits digits = chars ∧ magnitude digits = number := by
  have empty (digits : List (Fin 10)) : (spellDigits digits).isEmpty = digits.isEmpty := by
    cases digits <;> rfl
  constructor
  · intro reads
    rw [natural?] at reads
    split at reads
    · cases reads
    next accepted =>
      simp only [Bool.or_eq_true, not_or, Bool.not_eq_true', Bool.not_eq_false] at accepted
      obtain ⟨digits, rfl⟩ := all_isDigit_iff.mp accepted.2
      rw [empty] at accepted
      refine ⟨digits, by simpa using accepted.1, rfl, ?_⟩
      rw [ofDigitChars_spellDigits, Nat.zero_mul, Nat.zero_add] at reads
      exact Option.some.inj reads
  · rintro ⟨digits, nonempty, rfl, rfl⟩
    have digitsOnly : (spellDigits digits).all Char.isDigit = true :=
      all_isDigit_iff.mpr ⟨digits, rfl⟩
    rw [natural?, empty, digitsOnly, ofDigitChars_spellDigits, Nat.zero_mul, Nat.zero_add]
    simp [nonempty]

/-- A sign is read together with the digits after it. -/
theorem integer?_sign (sign : Sign) (digits : List Char) :
    integer? (sign.char :: digits) = (natural? digits).map sign.apply := by
  cases sign <;> rw [Sign.char, integer?] <;> cases natural? digits <;> rfl

/-- No digit is a sign, so digits without a sign are read as they are. -/
theorem integer?_of_natural? {chars : List Char} {number : Nat}
    (reads : natural? chars = some number) :
    integer? chars = some (number : Int) := by
  have unsigned : ∀ digit : Fin 10, digit.val.digitChar ≠ '+' ∧ digit.val.digitChar ≠ '-' := by
    decide
  obtain ⟨digits, nonempty, rfl, -⟩ := natural?_eq_some_iff.mp reads
  cases digits with
  | nil => exact absurd rfl nonempty
  | cons digit rest =>
    rw [integer?, reads]
    · rfl
    · intro tail same
      exact (unsigned digit).1 (List.cons.inj same).1
    · intro tail same
      exact (unsigned digit).2 (List.cons.inj same).1

/-- Characters that are read as an integer are digits, or a sign with digits
after it. -/
theorem natural?_of_integer? {chars : List Char} {value : Int}
    (reads : integer? chars = some value) :
    (∃ number : Nat, natural? chars = some number ∧ value = number) ∨
      ∃ sign : Sign, ∃ digits number, chars = sign.char :: digits ∧
        natural? digits = some number ∧ sign.apply number = value := by
  have signed (sign : Sign) (digits : List Char)
      (reads : integer? (sign.char :: digits) = some value) :
      ∃ number, natural? digits = some number ∧ sign.apply number = value := by
    rw [integer?_sign] at reads
    exact Option.map_eq_some_iff.mp reads
  rw [integer?.eq_def] at reads
  split at reads
  next digits =>
    obtain ⟨number, found, denoted⟩ := signed .plus digits reads
    exact .inr ⟨.plus, digits, number, rfl, found, denoted⟩
  next digits =>
    obtain ⟨number, found, denoted⟩ := signed .minus digits reads
    exact .inr ⟨.minus, digits, number, rfl, found, denoted⟩
  next =>
    left
    cases found : natural? chars with
    | none =>
      rw [found] at reads
      cases reads
    | some number =>
      rw [found] at reads
      cases reads
      exact ⟨number, rfl, rfl⟩

/-- A sequence of characters is read as an integer if it spells a numeral. -/
theorem integer?_eq_some_iff {chars : List Char} {value : Int} :
    integer? chars = some value ↔
      ∃ numeral : Numeral, numeral.spelling = chars ∧ numeral.value = value := by
  constructor
  · intro reads
    rcases natural?_of_integer? reads with
      ⟨number, found, rfl⟩ | ⟨sign, rest, number, rfl, found, rfl⟩
    · obtain ⟨digits, nonempty, rfl, rfl⟩ := natural?_eq_some_iff.mp found
      exact ⟨⟨none, digits, nonempty⟩, rfl, rfl⟩
    · obtain ⟨digits, nonempty, rfl, rfl⟩ := natural?_eq_some_iff.mp found
      exact ⟨⟨some sign, digits, nonempty⟩, rfl, rfl⟩
  · rintro ⟨⟨sign, digits, nonempty⟩, rfl, rfl⟩
    have found : natural? (spellDigits digits) = some (magnitude digits) :=
      natural?_eq_some_iff.mpr ⟨digits, nonempty, rfl, rfl⟩
    cases sign with
    | none => exact integer?_of_natural? found
    | some sign =>
      change integer? (sign.char :: spellDigits digits) = some (sign.apply (magnitude digits))
      rw [integer?_sign, found, Option.map_some]

/-- A sequence of characters is read as a word if it spells a numeral whose
value is one. -/
theorem word?_eq_some_iff {chars : List Char} {value : Int} :
    word? chars = some value ↔
      ∃ numeral : Numeral, numeral.spelling = chars ∧ numeral.value = value ∧ Word.Fits value := by
  rw [word?, Option.filter_eq_some_iff, integer?_eq_some_iff, decide_eq_true_iff]
  constructor
  · rintro ⟨⟨numeral, spelled, denoted⟩, fits⟩
    exact ⟨numeral, spelled, denoted, fits⟩
  · rintro ⟨numeral, spelled, denoted, fits⟩
    exact ⟨⟨numeral, spelled, denoted⟩, fits⟩

/-- The digits of a number are read as the number. -/
theorem natural?_toDigits (number : Nat) : natural? (Nat.toDigits 10 number) = some number := by
  have digitsOnly : (Nat.toDigits 10 number).all Char.isDigit = true := by
    rw [List.all_eq_true]
    exact fun _ inside => Nat.isDigit_of_mem_toDigits (by decide) (by decide) inside
  rw [natural?, digitsOnly, Nat.ofDigitChars_ten_toDigits]
  simp [Nat.toDigits_ne_nil]

/-- Whatever integer is written can be read back. -/
theorem integer?_render (value : Int) : integer? (render value) = some value := by
  cases value with
  | ofNat magnitude => exact integer?_of_natural? (natural?_toDigits magnitude)
  | negSucc predecessor =>
    change integer? (Sign.minus.char :: Nat.toDigits 10 (predecessor + 1)) = _
    rw [integer?_sign, natural?_toDigits]
    rfl

/-- A word is read as it is shown. -/
theorem word?_render {value : Int} (fits : Word.Fits value) :
    word? (render value) = some value := by
  rw [word?, integer?_render, Option.filter_some, if_pos (decide_eq_true fits)]

end ScopeStack.Decimal
