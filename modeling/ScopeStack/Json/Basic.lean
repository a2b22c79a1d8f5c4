import ScopeStack.Text.Decimal

/-!
# JSON values

A value as it is written. Members of an object keep their order and may repeat
a name. A text with half of a surrogate pair is kept apart, because it can be
skipped but not be read, and so is a number that is not an integer of 64 bits.
-/

namespace ScopeStack

/-- A JSON value. -/
inductive Json where
  | null
  | bool (value : Bool)
  /-- An integer of 64 bits, with or without a sign. -/
  | int (value : Int)
  /-- Any other number; `finite` says that it is in the range of double
  precision. -/
  | real (finite : Bool)
  /-- A text, or nothing if it holds half of a surrogate pair. -/
  | text (value : Option String)
  | array (items : List Json)
  | object (members : List (Option String × Json))

namespace Json

/-- A text value. -/
def string (value : String) : Json := .text (some value)

/-- A number of things or a position. -/
def nat (value : Nat) : Json := .int value

/-- An object with given members. -/
def record (members : List (String × Json)) : Json :=
  .object (members.map fun (name, value) => (some name, value))

/-- The member for an optional attribute: absent if there is none. -/
def optional {α : Type} (name : String) (encode : α → Json) (value : Option α) :
    List (String × Json) :=
  match value with
  | some value => [(name, encode value)]
  | none => []

mutual

/-- The depth of nesting of arrays and objects. -/
def depth : Json → Nat
  | .null | .bool _ | .int _ | .real _ | .text _ => 0
  | .array items => depthOfItems items + 1
  | .object members => depthOfMembers members + 1

/-- The depth of the deepest item. -/
def depthOfItems : List Json → Nat
  | [] => 0
  | item :: rest => max item.depth (depthOfItems rest)

/-- The depth of the deepest member. -/
def depthOfMembers : List (Option String × Json) → Nat
  | [] => 0
  | (_, value) :: rest => max value.depth (depthOfMembers rest)

end

mutual

/-- Every text and number in the value can be read. -/
def isReadable : Json → Bool
  | .null | .bool _ | .int _ => true
  | .real finite => finite
  | .text value => value.isSome
  | .array items => itemsReadable items
  | .object members => membersReadable members

/-- Every item can be read. -/
def itemsReadable : List Json → Bool
  | [] => true
  | item :: rest => item.isReadable && itemsReadable rest

/-- Every member can be read. -/
def membersReadable : List (Option String × Json) → Bool
  | [] => true
  | (name, value) :: rest => name.isSome && value.isReadable && membersReadable rest

end

end Json

end ScopeStack
