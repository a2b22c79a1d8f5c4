import ScopeStack.Json.Basic
import ScopeStack.Word

/-!
# Reading typed values

A record is written as an object, or as an array of its fields in order. In an
object, unknown members are skipped and a known one must not be repeated. A
field with a default may be missing; an optional field may be missing from an
object, but in an array it must be there, if only as `null`.
-/

namespace ScopeStack.Json

/-- Read an integer within bounds. -/
def intWithin? (low high : Int) : Json → Option Int
  | .int value => if low ≤ value ∧ value ≤ high then some value else none
  | _ => none

/-- Read a number that fits a machine word. -/
def word? : Json → Option Int := intWithin? (-2147483648) 2147483647

/-- Read a natural number up to a bound. -/
def natUpTo? (high : Nat) (json : Json) : Option Nat := (intWithin? 0 high json).map Int.toNat

/-- Read a natural number of 16 bits. -/
def nat16? : Json → Option Nat := natUpTo? 65535

/-- Read a natural number of 32 bits. -/
def nat32? : Json → Option Nat := natUpTo? 4294967295

/-- Read a natural number of 64 bits. -/
def nat64? : Json → Option Nat := natUpTo? 18446744073709551615

/-- Read a truth value. -/
def bool? : Json → Option Bool
  | .bool value => some value
  | _ => none

/-- Read a text. -/
def string? : Json → Option String
  | .text value => value
  | _ => none

/-- Read an array of which every item can be read. -/
def list? {α : Type} (read : Json → Option α) : Json → Option (List α)
  | .array items => items.mapM read
  | _ => none

/-- Read a value or `null`. -/
def nullable? {α : Type} (read : Json → Option α) : Json → Option (Option α)
  | .null => some none
  | json => (read json).map some

/-- Read one of a number of names. A name may also be the only member of an
object, with the value `null`. -/
def name? {α : Type} (names : List (String × α)) : Json → Option α
  | .text (some name) => names.lookup name
  | .object [(some name, .null)] => names.lookup name
  | _ => none

/-- The fields of a record that are present. -/
structure Fields where
  values : List (String × Json)
  /-- The record is written as an array. -/
  positional : Bool

namespace Fields

/-- The fields of an object among given names. -/
def ofMembers? (names : List String) (members : List (Option String × Json)) : Option Fields := do
  let members ← members.mapM fun (name, value) => name.map (·, value)
  let known := members.filter fun (name, _) => names.contains name
  if names.any fun name => 1 < (known.filter fun (other, _) => other == name).length then none
  else some ⟨known, false⟩

/-- The fields of an array, named in order. -/
def ofItems? (names : List String) (items : List Json) : Option Fields :=
  if names.length < items.length then none else some ⟨names.zip items, true⟩

/-- The fields of a record. -/
def ofJson? (names : List String) : Json → Option Fields
  | .object members => ofMembers? names members
  | .array items => ofItems? names items
  | _ => none

/-- Read a field that must be present. -/
def required {α : Type} (fields : Fields) (name : String) (read : Json → Option α) : Option α :=
  (fields.values.lookup name).bind read

/-- Read a field that may be `null` or missing from an object. -/
def optional {α : Type} (fields : Fields) (name : String) (read : Json → Option α) :
    Option (Option α) :=
  match fields.values.lookup name with
  | some value => nullable? read value
  | none => if fields.positional then none else some none

/-- Read a field that has a default. -/
def withDefault {α : Type} (fields : Fields) (name : String) (fallback : α)
    (read : Json → Option α) : Option α :=
  match fields.values.lookup name with
  | some value => read value
  | none => some fallback

end Fields

end ScopeStack.Json
