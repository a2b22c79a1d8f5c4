import ScopeStack.Diagnostic
import ScopeStack.Text.Decimal
import ScopeStack.Text.Hexadecimal

/-!
# Constants as they are spelled

A character or string constant stands in quotes. Inside, a backslash is
followed by `n` for a line break, by another backslash, by the quote itself, or
by two hexadecimal digits that give a code; every other character but the
quote stands for itself. `ofInt`, `ofChar` and `ofText` spell values, and
`readInt`, `readChar` and `readText` read them.
-/

namespace ScopeStack

/-- A lexeme that is not a constant of its kind. -/
inductive LiteralError where
  | integer (lexeme : String)
  | character (lexeme : String)
  | text (lexeme : String)
deriving DecidableEq, Repr

namespace LiteralError

/-- What is wrong with the lexeme. -/
def message : LiteralError → String
  | .integer lexeme => "illegal integer constant " ++ lexeme
  | .character lexeme => "illegal character constant " ++ lexeme
  | .text lexeme => "illegal string constant " ++ lexeme

/-- The number of the error. -/
def code : LiteralError → DiagnosticCode
  | .integer _ => ⟨100⟩
  | .character _ => ⟨101⟩
  | .text _ => ⟨102⟩

end LiteralError

namespace Literal

/-- The codes that the characters between the quotes stand for. -/
def codes? (quote : Char) : List Char → Option (List Nat)
  | [] => some []
  | '\\' :: 'n' :: rest => (codes? quote rest).map (10 :: ·)
  | '\\' :: '\\' :: rest => (codes? quote rest).map (92 :: ·)
  | '\\' :: high :: rest =>
    if high = quote then (codes? quote rest).map (quote.toNat :: ·)
    else
      match rest with
      | low :: after =>
        match Hexadecimal.value? high, Hexadecimal.value? low with
        | some upper, some lower => (codes? quote after).map ((upper * 16 + lower) :: ·)
        | _, _ => none
      | [] => none
  | char :: rest =>
    if char = quote ∨ char = '\\' then none
    else (codes? quote rest).map (char.toNat :: ·)

/-- The characters between a pair of quotes. -/
def unquote? (quote : Char) : List Char → Option (List Char)
  | [] => none
  | first :: rest =>
    if first = quote ∧ rest.getLast? = some quote then some rest.dropLast else none

/-- The codes of a quoted constant. -/
def quoted? (quote : Char) (lexeme : List Char) : Option (List Nat) :=
  (unquote? quote lexeme).bind (codes? quote)

/-- The value of an integer constant. -/
def readInt (lexeme : String) : Except LiteralError Int :=
  match Decimal.word? lexeme.toList with
  | some value => .ok value
  | none => .error (.integer lexeme)

/-- The code of a character constant. -/
def readChar (lexeme : String) : Except LiteralError Int :=
  match quoted? '\'' lexeme.toList with
  | some [code] => .ok code
  | _ => .error (.character lexeme)

/-- The codes of a string constant. -/
def readText (lexeme : String) : Except LiteralError (List Int) :=
  match quoted? '"' lexeme.toList with
  | some codes => .ok (codes.map fun (code : Nat) => (code : Int))
  | none => .error (.text lexeme)

/-- One character inside quotes. -/
def escape (quote char : Char) : List Char :=
  if char = '\n' then ['\\', 'n']
  else if char = '\\' then ['\\', '\\']
  else if char = quote then ['\\', quote]
  else if char.toNat < 0x20 ∨ char.toNat = 0x7F then
    ['\\', Hexadecimal.digit (char.toNat / 16), Hexadecimal.digit (char.toNat % 16)]
  else [char]

/-- Characters in quotes. -/
def quote (mark : Char) (text : List Char) : String :=
  String.ofList (mark :: text.flatMap (escape mark) ++ [mark])

/-- The constant for an integer. -/
def ofInt (value : Int) : String := Decimal.text value

/-- The constant for a character. -/
def ofChar (char : Char) : String := quote '\'' [char]

/-- The constant for a text. -/
def ofText (text : String) : String := quote '"' text.toList

end Literal

end ScopeStack
