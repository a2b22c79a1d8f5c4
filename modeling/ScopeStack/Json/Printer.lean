import ScopeStack.Json.Basic

/-!
# Writing JSON

Values are written without white space. In texts the quote, the backslash and
control characters are escaped, and everything else stands for itself.
-/

namespace ScopeStack.Json

/-- One character of a text. -/
def escape (char : Char) : List Char :=
  match char with
  | '"' => ['\\', '"']
  | '\\' => ['\\', '\\']
  | '\x08' => ['\\', 'b']
  | '\x0c' => ['\\', 'f']
  | '\n' => ['\\', 'n']
  | '\r' => ['\\', 'r']
  | '\t' => ['\\', 't']
  | _ =>
    if char.toNat < 0x20 then
      ['\\', 'u', '0', '0', Nat.digitChar (char.toNat / 16), Nat.digitChar (char.toNat % 16)]
    else [char]

/-- A text in quotes. -/
def quote (text : String) : String :=
  String.ofList (['"'] ++ text.toList.flatMap escape ++ ['"'])

mutual

/-- A value as text. -/
def render : Json → String
  | .null => "null"
  | .bool true => "true"
  | .bool false => "false"
  | .int value => Decimal.text value
  | .real _ => "null"
  | .text value => quote (value.getD "")
  | .array items => "[" ++ String.intercalate "," (renderItems items) ++ "]"
  | .object members => "\x7b" ++ String.intercalate "," (renderMembers members) ++ "\x7d"

/-- Each item as text. -/
def renderItems : List Json → List String
  | [] => []
  | item :: rest => item.render :: renderItems rest

/-- Each member as text. -/
def renderMembers : List (Option String × Json) → List String
  | [] => []
  | (name, value) :: rest =>
    (quote (name.getD "") ++ ":" ++ value.render) :: renderMembers rest

end

end ScopeStack.Json
