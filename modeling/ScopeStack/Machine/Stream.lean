import ScopeStack.Machine.Fault

/-!
# Input and output

The input is the list of bytes that have not been read. It is read by words,
which white space separates, or by lines; what is read is taken from the front
of the list even if it turns out not to be text or not to be a number.

The output is what has been written so far. It may be limited; a write that
does not fit leaves as much as fits.
-/

namespace ScopeStack

namespace Input

/-- The byte is white space: blank, tab, line feed, form feed or carriage
return. -/
def isBlank (byte : UInt8) : Bool :=
  byte == 0x20 || byte == 0x09 || byte == 0x0A || byte == 0x0C || byte == 0x0D

/-- The next word: the bytes up to white space or the end, after any white
space. The white space that ends it stays in the input. -/
def token (input : List UInt8) : List UInt8 :=
  (input.dropWhile isBlank).takeWhile fun byte => !isBlank byte

/-- The input after the next word. -/
def afterToken (input : List UInt8) : List UInt8 :=
  (input.dropWhile isBlank).dropWhile fun byte => !isBlank byte

/-- Read a word, and return what is left of the input. -/
def readToken (input : List UInt8) : Except Fault String × List UInt8 :=
  let result :=
    if (token input).isEmpty then .error .endOfInput
    else
      match Utf8.decode (token input) with
      | .ok text => .ok (String.ofList text)
      | .error cause => .error (.badToken cause)
  (result, afterToken input)

/-- Read a number, and return what is left of the input. -/
def readInt (input : List UInt8) : Except Fault Int × List UInt8 :=
  let (result, rest) := readToken input
  let number := do
    let text ← result
    match Decimal.word? text.toList with
    | some value => .ok value
    | none => .error (.badNumber text)
  (number, rest)

/-- The next line, with the line feed that ends it. -/
def line (input : List UInt8) : List UInt8 :=
  (input.takeWhile fun byte => byte != 0x0A) ++ (input.dropWhile fun byte => byte != 0x0A).take 1

/-- The input after the next line. -/
def afterLine (input : List UInt8) : List UInt8 :=
  (input.dropWhile fun byte => byte != 0x0A).drop 1

/-- The character ends a line. -/
def isLineEnd (char : Char) : Bool := char == '\n' || char == '\r'

/-- A line without the line ends at its end. -/
def trimLine (line : List Char) : List Char := (line.reverse.dropWhile isLineEnd).reverse

/-- Read a line, and return what is left of the input. -/
def readLine (input : List UInt8) : Except Fault (List Char) × List UInt8 :=
  let result :=
    if input.isEmpty then .error .endOfInput
    else
      match Utf8.decode (line input) with
      | .ok text => .ok (trimLine text)
      | .error _ => .error .badLine
  (result, afterLine input)

end Input

/-- The output of a machine. -/
structure Output where
  written : Array UInt8
  /-- The number of bytes that can be written in all. -/
  limit : Option Nat
deriving DecidableEq, Repr

namespace Output

/-- Nothing has been written. -/
def empty (limit : Option Nat) : Output := ⟨#[], limit⟩

/-- The bytes of a write that fit. -/
def accepted (output : Output) (bytes : List UInt8) : List UInt8 :=
  match output.limit with
  | none => bytes
  | some limit => bytes.take (limit - output.written.size)

/-- Write as much as fits. -/
def write (output : Output) (bytes : List UInt8) : Output :=
  { output with written := output.written ++ output.accepted bytes }

/-- All bytes of a write fit. -/
def fits (output : Output) (bytes : List UInt8) : Bool :=
  (output.accepted bytes).length == bytes.length

end Output

end ScopeStack
