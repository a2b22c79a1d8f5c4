import ScopeStack.Literal
import ScopeStack.Syntax

/-!
# Initializers

The initializer of a variable is a list of runs, each a sequence of words that
is repeated a number of times. In an image it is a flat list of integers: the
number of runs, then for each run its repetitions, its length and its words.
`encode` writes that form, `byteSize` measures it, and `expand` is the list of
words with which the variable starts.

Every integer of the flat form is a word. The number of runs and the repetitions
are checked to be words before they are written, but a length is reduced to a
word without a check, so that a text of `2 ^ 31` words or more gets a length that
is not its own.
-/

namespace ScopeStack

/-- A flat initializer that cannot be used. -/
inductive InitializerError where
  | tooManyElements
  | negativeCount (count : Int)
  | exceedsAddressSpace
  | truncatedRecord
deriving DecidableEq, Repr

/-- What is wrong with the initializer. -/
def InitializerError.message : InitializerError → String
  | .tooManyElements => "too many elements"
  | .negativeCount count => "negative repetition count " ++ Decimal.text count
  | .exceedsAddressSpace => "initializer exceeds address space"
  | .truncatedRecord => "truncated record"

/-- An error found while a program is laid out. -/
inductive LayoutError where
  | literal (cause : LiteralError)
  | initializer (cause : InitializerError)
deriving DecidableEq, Repr

namespace LayoutError

/-- What is wrong with the program. -/
def message : LayoutError → String
  | .literal cause => cause.message
  | .initializer cause => "illegal initializer: " ++ cause.message

/-- The number of the error. -/
def code : LayoutError → DiagnosticCode
  | .literal cause => cause.code
  | .initializer _ => ⟨103⟩

/-- The error as it is reported. -/
def toDiagnostic (error : LayoutError) : Diagnostic :=
  Diagnostic.ofCode error.code error.message none

end LayoutError

namespace Initializer

/-- Words that are repeated a number of times. -/
structure Run where
  times : Nat
  words : List Int
deriving DecidableEq, Repr

/-- The words of a run, repetitions written out. -/
def Run.expand (run : Run) : List Int := (List.replicate run.times run.words).flatten

/-- The length of a run as it is written: the word congruent to it. -/
def Run.lengthWord (run : Run) : Int := (Word.ofInt run.words.length).toInt

/-- The flat form of a run. -/
def Run.encode (run : Run) : List Int := (run.times : Int) :: run.lengthWord :: run.words

/-- The words of an initializer, repetitions written out. -/
def expand (runs : List Run) : List Int := runs.flatMap Run.expand

/-- The flat form of an initializer. -/
def encode (runs : List Run) : List Int := (runs.length : Int) :: runs.flatMap Run.encode

/-- The words of a constant. A text ends with a zero word. -/
def valueWords (atom : Atom) : Except LiteralError (List Int) :=
  match atom.kind with
  | .int => (Literal.readInt atom.lexeme).map ([·])
  | .char => (Literal.readChar atom.lexeme).map ([·])
  | .str => (Literal.readText atom.lexeme).map (· ++ [0])

/-- The run that an item of an initializer denotes. The repetition count is
read before the value. -/
def runOfItem (item : InitItem) : Except LayoutError Run := do
  let count ← (Literal.readInt item.count.lexeme).mapError .literal
  if count < 0 then throw (.initializer (.negativeCount count))
  let words ← (valueWords item.value).mapError .literal
  return ⟨count.toNat, words⟩

/-- The runs of a list of items, read in order. -/
def runsOfItems : List InitItem → Except LayoutError (List Run)
  | [] => .ok []
  | item :: rest => do
    let run ← runOfItem item
    let runs ← runsOfItems rest
    return run :: runs

/-- The runs of an initializer. A variable without one starts with a single
zero word. The number of items must be a word; this is checked before any of
them is read. -/
def runs (items : List InitItem) : Except LayoutError (List Run) :=
  if items.isEmpty then .ok [⟨1, [0]⟩]
  else if 2147483647 < items.length then .error (.initializer .tooManyElements)
  else runsOfItems items

/-- The flat form of a list of items. -/
def flatten (items : List InitItem) : Except LayoutError (List Int) :=
  (runs items).map encode

/-- How far the cursor moves over the words of a record: the length as an unsigned
number of 64 bits, so that a negative one leads beyond the end of any list that
fits into memory. -/
def skipped (length : Int) : Nat := (length % 18446744073709551616).toNat

/-- Add up the words that the records of a flat initializer fill. Products and
sums must each be representable as a word. The cursor is the rest of the list;
that a position could exceed 64 bits is left out. -/
def countWords : Nat → List Int → Int → Except InitializerError Int
  | 0, _, total => .ok total
  | records + 1, times :: length :: rest, total =>
    if Word.Fits (times * length) ∧ Word.Fits (total + times * length) then
      countWords records (rest.drop (skipped length)) (total + times * length)
    else .error .exceedsAddressSpace
  | _ + 1, _, _ => .error .truncatedRecord

/-- The number of bytes that a flat initializer fills. -/
def byteSize (flat : List Int) : Except InitializerError Int := do
  let total ← countWords (flat.headD 0).toNat flat.tail 0
  if Word.Fits (total * 4) then return total * 4 else throw .exceedsAddressSpace

end Initializer

end ScopeStack
