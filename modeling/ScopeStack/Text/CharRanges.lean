/-!
# Sets of characters

A set of characters given by ascending ranges of codes, as the tables of a
character standard give it. `contains_iff` says that the search, which stops
at the first range beyond the character, misses nothing.
-/

namespace ScopeStack

/-- Closed ranges of character codes. -/
abbrev CharRanges := List (Nat × Nat)

namespace CharRanges

/-- The ranges are not empty, ascend, and do not touch. -/
def isAscending : CharRanges → Bool
  | [] => true
  | [range] => range.1 ≤ range.2
  | range :: next :: rest =>
    range.1 ≤ range.2 && range.2 + 1 < next.1 && isAscending (next :: rest)

/-- Search ascending ranges for a character. -/
def contains : CharRanges → Char → Bool
  | [], _ => false
  | range :: rest, char =>
    range.1 ≤ char.toNat && (char.toNat ≤ range.2 || contains rest char)

/-- All ranges after the first lie above it. -/
theorem lt_of_mem_tail {range other : Nat × Nat} {rest : CharRanges}
    (ascending : isAscending (range :: rest) = true) (member : other ∈ rest) :
    range.2 < other.1 := by
  induction rest generalizing range with
  | nil => cases member
  | cons next rest hypothesis =>
    simp only [isAscending, Bool.and_eq_true, decide_eq_true_eq] at ascending
    obtain ⟨⟨_, apart⟩, tail⟩ := ascending
    rcases List.mem_cons.mp member with rfl | later
    · omega
    · have above := hypothesis tail later
      have filled : next.1 ≤ next.2 := by
        cases rest <;> simp_all [isAscending]
      omega

/-- The tail of ascending ranges ascends. -/
theorem isAscending_tail {range : Nat × Nat} {rest : CharRanges}
    (ascending : isAscending (range :: rest) = true) : isAscending rest = true := by
  cases rest with
  | nil => rfl
  | cons next rest =>
    simp only [isAscending, Bool.and_eq_true] at ascending
    exact ascending.2

/-- A character is found exactly if some range holds its code. -/
theorem contains_iff {ranges : CharRanges} (ascending : ranges.isAscending = true) (char : Char) :
    ranges.contains char = true ↔
      ∃ range ∈ ranges, range.1 ≤ char.toNat ∧ char.toNat ≤ range.2 := by
  induction ranges with
  | nil => simp [contains]
  | cons range rest hypothesis =>
    have tail := hypothesis (isAscending_tail ascending)
    simp only [contains, Bool.and_eq_true, Bool.or_eq_true, decide_eq_true_eq, tail,
      List.mem_cons, exists_eq_or_imp]
    constructor
    · rintro ⟨low, high | later⟩
      · exact Or.inl ⟨low, high⟩
      · exact Or.inr later
    · rintro (⟨low, high⟩ | ⟨other, member, low, high⟩)
      · exact ⟨low, Or.inl high⟩
      · have above := lt_of_mem_tail ascending member
        have filled : range.1 ≤ range.2 := by
          cases rest <;> simp_all [isAscending]
        exact ⟨by omega, Or.inr ⟨other, member, low, high⟩⟩

end CharRanges

end ScopeStack
