/-!
# Label allocation

A label is reserved by giving a base name. The base itself is taken if it is
free, and otherwise the first free one of `base_1`, `base_2` and so on. A set
with `n` labels cannot hold `n + 1` different candidates, so the search looks
at no more than that many. Numbers here have no bound; what becomes of a count
that is a word when the first 2147483647 numbered candidates are all taken is
left out.
-/

namespace ScopeStack

/-- The labels that are in use. -/
structure LabelSet where
  labels : List String
deriving DecidableEq, Repr

namespace LabelSet

instance : Membership String LabelSet := ⟨fun set label => label ∈ set.labels⟩

instance (set : LabelSet) (label : String) : Decidable (label ∈ set) :=
  inferInstanceAs (Decidable (label ∈ set.labels))

/-- Candidate number `index` for a base name. -/
def candidate (base : String) : Nat → String
  | 0 => base
  | index + 1 => base ++ "_" ++ toString (index + 1)

/-- The first free candidate from number `index` on, after at most `probes`
occupied ones. -/
def search (set : LabelSet) (base : String) : Nat → Nat → String
  | 0, index => candidate base index
  | probes + 1, index =>
    if candidate base index ∈ set then search set base probes (index + 1)
    else candidate base index

/-- The label that a base name receives. -/
def free (set : LabelSet) (base : String) : String := search set base set.labels.length 0

/-- Reserve a label for a base name. -/
def reserve (set : LabelSet) (base : String) : String × LabelSet :=
  (set.free base, ⟨set.free base :: set.labels⟩)

end LabelSet

end ScopeStack
