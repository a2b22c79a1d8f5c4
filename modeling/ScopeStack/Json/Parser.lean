import ScopeStack.Json.Basic
import ScopeStack.Json.Magnitude
import ScopeStack.Text.Hexadecimal

/-!
# Reading JSON

The reader accepts JSON and nothing else: white space is blank, tab, line feed
and carriage return, numbers have no superfluous zeros, control characters in
texts must be escaped, and nothing but white space follows the value. A
function that reads something returns it with the rest of the input.
-/

namespace ScopeStack.Json

/-- The character is white space. -/
def isBlank (char : Char) : Bool := char == ' ' || char == '\t' || char == '\n' || char == '\r'

/-- The input after white space. -/
def skipBlanks (input : List Char) : List Char := input.dropWhile isBlank

/-- The unit that four hexadecimal digits stand for. -/
def unit? (first second third fourth : Char) : Option Nat := do
  let digits ← [first, second, third, fourth].mapM Hexadecimal.value?
  return digits.foldl (fun value digit => value * 16 + digit) 0

/-- The character of an escape with one letter. -/
def simpleEscape? : Char → Option Char
  | '"' => some '"'
  | '\\' => some '\\'
  | '/' => some '/'
  | 'b' => some '\x08'
  | 'f' => some '\x0c'
  | 'n' => some '\n'
  | 'r' => some '\r'
  | 't' => some '\t'
  | _ => none

/-- One part of a text. -/
inductive Piece where
  | char (char : Char)
  /-- Half of a surrogate pair. -/
  | half (unit : Nat)

/-- The parts of a text up to the closing quote. -/
def pieces? : List Char → Option (List Piece × List Char)
  | [] => none
  | '"' :: rest => some ([], rest)
  | '\\' :: 'u' :: first :: second :: third :: fourth :: rest => do
    let unit ← unit? first second third fourth
    let (pieces, after) ← pieces? rest
    let piece := if unit.isValidChar then Piece.char (Char.ofNat unit) else Piece.half unit
    return (piece :: pieces, after)
  | '\\' :: letter :: rest => do
    let char ← simpleEscape? letter
    let (pieces, after) ← pieces? rest
    return (.char char :: pieces, after)
  | char :: rest =>
    if char = '\\' ∨ char.toNat < 0x20 then none
    else do
      let (pieces, after) ← pieces? rest
      return (.char char :: pieces, after)

/-- The text of parts in which halves of surrogate pairs come in pairs, a high
half before a low one. -/
def joinPieces? : List Piece → Option (List Char)
  | [] => some []
  | .char char :: rest => (joinPieces? rest).map (char :: ·)
  | .half high :: .half low :: rest =>
    if high < 0xDC00 ∧ 0xDC00 ≤ low then
      (joinPieces? rest).map
        (Char.ofNat (0x10000 + (high - 0xD800) * 0x400 + (low - 0xDC00)) :: ·)
    else none
  | .half _ :: _ => none

/-- Read a text after its opening quote. -/
def textBody? (input : List Char) : Option (Option String × List Char) := do
  let (pieces, rest) ← pieces? input
  return ((joinPieces? pieces).map String.ofList, rest)

/-- The digits at the start of the input, and what follows. -/
def digits (input : List Char) : List Char × List Char :=
  (input.takeWhile Char.isDigit, input.dropWhile Char.isDigit)

/-- Read the digits after a decimal point, if there is one. -/
def fraction? : List Char → Option (List Char × List Char)
  | '.' :: rest =>
    let (places, after) := digits rest
    if places.isEmpty then none else some (places, after)
  | input => some ([], input)

/-- Read an exponent, if there is one. -/
def exponent? (input : List Char) : Option (Option Int × List Char) :=
  match input with
  | mark :: rest =>
    if mark = 'e' ∨ mark = 'E' then
      let (negative, unsigned) :=
        match rest with
        | '+' :: after => (false, after)
        | '-' :: after => (true, after)
        | after => (false, after)
      let (places, after) := digits unsigned
      if places.isEmpty then none
      else
        let magnitude := (Nat.ofDigitChars 10 places 0 : Int)
        some (some (if negative then -magnitude else magnitude), after)
    else some (none, input)
  | [] => some (none, [])

/-- The value of an integer numeral. Zero with a minus sign and what does not
fit 64 bits are not kept as integers. -/
def ofWhole (negative : Bool) (whole : List Char) : Json :=
  let magnitude := Magnitude.ofNumeral whole [] 0
  let value : Int := magnitude.significand
  if magnitude.exponent = 0 ∧ !negative then .int value
  else if magnitude.exponent = 0 ∧ 0 < value ∧ value ≤ 9223372036854775808 then .int (-value)
  else .real magnitude.isFinite

/-- Read a number after its sign. -/
def number? (negative : Bool) (input : List Char) : Option (Json × List Char) := do
  let (whole, rest) := digits input
  if whole.isEmpty ∨ (whole.head? = some '0' ∧ 1 < whole.length) then none
  let (places, rest) ← fraction? rest
  let (exponent, rest) ← exponent? rest
  if places.isEmpty ∧ exponent.isNone then return (ofWhole negative whole, rest)
  return (.real (Magnitude.ofNumeral whole places (exponent.getD 0)).isFinite, rest)

mutual

/-- Read a value. Each call is given fewer calls than its caller, and the
length of the input bounds how many are needed. -/
def value? : Nat → List Char → Option (Json × List Char)
  | 0, _ => none
  | fuel + 1, input =>
    match skipBlanks input with
    | 'n' :: 'u' :: 'l' :: 'l' :: rest => some (.null, rest)
    | 't' :: 'r' :: 'u' :: 'e' :: rest => some (.bool true, rest)
    | 'f' :: 'a' :: 'l' :: 's' :: 'e' :: rest => some (.bool false, rest)
    | '"' :: rest => do
      let (content, after) ← textBody? rest
      return (.text content, after)
    | '[' :: rest =>
      match skipBlanks rest with
      | ']' :: after => some (.array [], after)
      | _ => do
        let (items, after) ← items? fuel rest
        return (.array items, after)
    | '\x7b' :: rest =>
      match skipBlanks rest with
      | '\x7d' :: after => some (.object [], after)
      | _ => do
        let (members, after) ← members? fuel rest
        return (.object members, after)
    | '-' :: rest => number? true rest
    | rest => number? false rest

/-- Read the items of an array up to the closing bracket. -/
def items? : Nat → List Char → Option (List Json × List Char)
  | 0, _ => none
  | fuel + 1, input => do
    let (item, rest) ← value? fuel input
    match skipBlanks rest with
    | ']' :: after => return ([item], after)
    | ',' :: more => do
      let (items, after) ← items? fuel more
      return (item :: items, after)
    | _ => none

/-- Read the members of an object up to the closing brace. -/
def members? : Nat → List Char → Option (List (Option String × Json) × List Char)
  | 0, _ => none
  | fuel + 1, input => do
    match skipBlanks input with
    | '"' :: rest => do
      let (name, rest) ← textBody? rest
      match skipBlanks rest with
      | ':' :: rest => do
        let (value, rest) ← value? fuel rest
        match skipBlanks rest with
        | '\x7d' :: after => return ([(name, value)], after)
        | ',' :: more => do
          let (members, after) ← members? fuel more
          return ((name, value) :: members, after)
        | _ => none
      | _ => none
    | _ => none

end

/-- The value that a text holds. -/
def parse? (text : String) : Option Json :=
  let input := text.toList
  match value? (2 * input.length + 2) input with
  | some (value, rest) => if (skipBlanks rest).isEmpty then some value else none
  | none => none

end ScopeStack.Json
