import ScopeStack.Text.CombiningMark
import ScopeStack.Text.Unprintable

/-!
# Quoted text in messages

A message that shows a piece of input puts it in double quotes. Quotes,
backslashes and characters that cannot be seen for themselves are escaped, so
that the message stays on one line and shows what was read.
-/

namespace ScopeStack.Quoted

/-- The character is shown by its number rather than by itself: it has no shape
of its own, or its shape would join the character before it. -/
def isNumbered (char : Char) : Bool :=
  Unprintable.ranges.contains char || CombiningMark.ranges.contains char

/-- One character inside the quotes. -/
def escape (char : Char) : List Char :=
  match char with
  | '"' => ['\\', '"']
  | '\\' => ['\\', '\\']
  | '\t' => ['\\', 't']
  | '\r' => ['\\', 'r']
  | '\n' => ['\\', 'n']
  | '\x00' => ['\\', '0']
  | _ =>
    if isNumbered char then
      ['\\', 'u', '\x7b'] ++ Nat.toDigits 16 char.toNat ++ ['\x7d']
    else [char]

/-- A text in double quotes. -/
def quote (text : List Char) : String :=
  String.ofList (['"'] ++ text.flatMap escape ++ ['"'])

end ScopeStack.Quoted
