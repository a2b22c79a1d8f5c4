import ScopeStack.Proofs.Layout.Room

/-!
# The places of a function's variables

The local variables of all blocks of a function lie below one another in its frame, from the
frame header down, and its parameters above the access link. `Stacked` says so for a list of
variables, in the order in which layout meets them; `Owns` names the variables and parameters of
a function. No two of them overlap, and none reaches into the header: `FunctionLaid.area` and
`FunctionLaid.apart`. A text whose length is not a word may take a negative number of bytes, so
that this is said of functions without such a text, `FunDef.LengthsFit`.
-/

namespace ScopeStack

/-- The lengths in the initializers of a function's variables are words. -/
def FunDef.LengthsFit (function : FunDef) : Prop :=
  ∀ declared ∈ localsOfStmts function.body, declared.LengthsFit

instance (function : FunDef) : Decidable function.LengthsFit :=
  inferInstanceAs (Decidable (∀ declared ∈ localsOfStmts function.body, declared.LengthsFit))

namespace Layout

/-- The number of bytes of a variable is that of the words of its initializer. -/
theorem exists_contents_of_measure {declared : VarDef} {flat : List Int} {size : Int}
    (fit : declared.LengthsFit) (measured : measure declared = .ok (flat, size)) :
    ∃ contents, Initializer.contents? declared.items = some contents ∧
      size = 4 * contents.length := by
  obtain ⟨runs, found, -, rfl⟩ := exists_runs_of_measure fit measured
  exact ⟨_, (Initializer.contents?_of_runs found).1, rfl⟩

/-- A variable takes a word at least unless its initializer has none. -/
theorem four_le_iff_of_measure {declared : VarDef} {flat : List Int} {size : Int}
    (fit : declared.LengthsFit) (measured : measure declared = .ok (flat, size)) :
    4 ≤ size ↔ Initializer.contents? declared.items ≠ some [] := by
  obtain ⟨contents, initial, rfl⟩ := exists_contents_of_measure fit measured
  rw [initial, ne_eq, Option.some.injEq, ← List.length_eq_zero_iff]
  omega

/-- Variables lie below one another, from an offset down to another one. Each has room for the
words of its initializer. -/
def Stacked (layout : Layout) : Int → List VarDef → Int → Prop
  | top, [], bottom => bottom = top
  | top, declared :: rest, bottom =>
    ∃ access contents, layout.accesses[declared.id]? = some (.rel access) ∧
      Initializer.contents? declared.items = some contents ∧
      access.size = 4 * contents.length ∧ access.offset + access.size = top ∧
      layout.Stacked access.offset rest bottom

namespace Stacked

variable {layout : Layout} {top bottom : Int} {first : List VarDef}

/-- Stacked variables end below their top. -/
theorem le (stacked : layout.Stacked top first bottom) : bottom ≤ top := by
  induction first generalizing top with
  | nil => exact Int.le_of_eq stacked
  | cons declared rest hypothesis =>
    obtain ⟨access, contents, -, -, size, place, later⟩ := stacked
    have lower := hypothesis later
    omega

/-- Each of the variables lies between the two offsets. -/
theorem inside (stacked : layout.Stacked top first bottom) {declared : VarDef}
    (member : declared ∈ first) :
    ∃ access contents, layout.accesses[declared.id]? = some (.rel access) ∧
      Initializer.contents? declared.items = some contents ∧
      access.size = 4 * contents.length ∧ bottom ≤ access.offset ∧
      access.offset + access.size ≤ top := by
  induction first generalizing top with
  | nil => cases member
  | cons own rest hypothesis =>
    obtain ⟨access, contents, found, initial, size, place, later⟩ := stacked
    rcases List.mem_cons.mp member with rfl | inRest
    · exact ⟨access, contents, found, initial, size, later.le, Int.le_of_eq place⟩
    · obtain ⟨other, words, otherFound, otherInitial, otherSize, low, high⟩ :=
        hypothesis later inRest
      exact ⟨other, words, otherFound, otherInitial, otherSize, low, by omega⟩

/-- Different variables do not overlap. -/
theorem apart (stacked : layout.Stacked top first bottom) {one other : VarDef}
    (inOne : one ∈ first) (inOther : other ∈ first) (different : one.id ≠ other.id)
    {place otherPlace : RelAccess} (found : layout.accesses[one.id]? = some (.rel place))
    (otherFound : layout.accesses[other.id]? = some (.rel otherPlace)) :
    place.offset + place.size ≤ otherPlace.offset ∨
      otherPlace.offset + otherPlace.size ≤ place.offset := by
  induction first generalizing top with
  | nil => cases inOne
  | cons own rest hypothesis =>
    obtain ⟨access, contents, ownFound, -, -, -, later⟩ := stacked
    -- whatever comes later in the list lies below the first variable
    have below {lower : VarDef} {lowerPlace : RelAccess} (member : lower ∈ rest)
        (lowerFound : layout.accesses[lower.id]? = some (.rel lowerPlace)) :
        lowerPlace.offset + lowerPlace.size ≤ access.offset := by
      obtain ⟨same, -, again, -, -, -, high⟩ := later.inside member
      cases Option.some.inj (again.symm.trans lowerFound)
      exact high
    rcases List.mem_cons.mp inOne with rfl | oneLater
    · cases Option.some.inj (ownFound.symm.trans found)
      rcases List.mem_cons.mp inOther with rfl | otherLater
      · exact absurd rfl different
      · exact .inr (below otherLater otherFound)
    · rcases List.mem_cons.mp inOther with rfl | otherLater
      · cases Option.some.inj (ownFound.symm.trans otherFound)
        exact .inl (below oneLater found)
      · exact hypothesis later oneLater otherLater

end Stacked

/-- Variables that are added to a frame are stacked, if the lengths in their initializers are
words. -/
theorem Adds.stacked {layout : Layout} {declared : List VarDef} {before after : Locals}
    (adds : layout.Adds declared before after) (fit : ∀ own ∈ declared, own.LengthsFit) :
    layout.Stacked before.bottom declared after.bottom := by
  obtain ⟨added, -, placed, tiles⟩ := adds
  generalize before.bottom = top at tiles ⊢
  induction placed generalizing top with
  | nil => exact tiles
  | cons own _ hypothesis =>
    obtain ⟨ownFit, restFit⟩ := List.forall_mem_cons.mp fit
    obtain ⟨place, later⟩ := tiles
    obtain ⟨found, flat, measured, -⟩ := own
    obtain ⟨contents, initial, sized⟩ := exists_contents_of_measure ownFit measured
    exact ⟨_, contents, found, initial, sized, place, hypothesis restFit _ later⟩

/-- A variable of a block has its place below what has been laid out before the
block, and above what is laid out later. -/
theorem DefsLaid.slot {layout : Layout} {label : String} {depth : Nat} {defs : List Def}
    {before after : Extent} {declared : VarDef}
    (laid : DefsLaid layout label depth defs before after)
    (fit : ∀ declared ∈ variablesIn defs, declared.LengthsFit)
    (inside : declared ∈ variablesIn defs) :
    ∃ flat size access, measure declared = .ok (flat, size) ∧
      layout.accesses[declared.id]? = some (.rel access) ∧ access.depth = depth ∧
      access.inits = some flat ∧ after.locals.bottom ≤ access.offset ∧
      access.offset + size ≤ before.locals.bottom := by
  obtain ⟨flat, size, access, measured, found, deep, rfl, initial⟩ := laid.entry inside
  obtain ⟨same, -, again, -, -, low, high⟩ := (laid.adds.stacked fit).inside inside
  cases Option.some.inj (again.symm.trans found)
  exact ⟨flat, _, access, measured, found, deep, initial, low, high⟩

/-- The place of a variable or parameter of a function in its frame. -/
def Owns (layout : Layout) (owner : FunDef) (id : NodeId) (place : RelAccess) : Prop :=
  layout.accesses[id]? = some (.rel place) ∧
    (id ∈ owner.params.map Param.id ∨ id ∈ (localsOfStmts owner.body).map VarDef.id)

/-- Storage in the part of a frame for its kind: for local variables that below the frame header,
and for parameters that above the access link. -/
def Area (layout : Layout) (owner : FunDef) (id : NodeId) (place : RelAccess) : Prop :=
  (id ∈ (localsOfStmts owner.body).map VarDef.id ∧
    -(layout.frameOf owner.id).varsSize ≤ place.offset ∧
    place.offset + place.size ≤ -Frame.headerSize) ∨
  (id ∈ owner.params.map Param.id ∧ 4 ≤ place.offset ∧
    place.offset + place.size ≤ (layout.frameOf owner.id).parsSize)

section Owns

variable {layout : Layout} {outer : Option String} {depth : Nat} {owner : FunDef}
  {before after : LabelSet} {id other : NodeId} {place otherPlace : RelAccess}

/-- All variables of a function are stacked, from its frame header to the end of its frame. -/
theorem FunctionLaid.stacked (laid : FunctionLaid layout outer depth owner before after)
    (fit : owner.LengthsFit) :
    layout.Stacked (-Frame.headerSize) (localsOfStmts owner.body)
      (-(layout.frameOf owner.id).varsSize) := by
  obtain ⟨-, -, label, first, last, laidBody, top, bottom⟩ := laid.body
  rw [← top, ← bottom]
  exact (StmtsLaid.adds owner.body laidBody).stacked fit

/-- The frame of a function has room for whole words of variables. -/
theorem FunctionLaid.exists_words (laid : FunctionLaid layout outer depth owner before after)
    (fit : owner.LengthsFit) :
    ∃ words : Nat, (layout.frameOf owner.id).localsSize = 4 * words := by
  obtain ⟨words, sized⟩ := laid.words
  have room := (laid.stacked fit).le
  rw [Frame.localsSize] at sized ⊢
  exact ⟨words.toNat, by omega⟩

/-- A parameter has a word of its own, as its position says. -/
theorem FunctionLaid.exists_position (laid : FunctionLaid layout outer depth owner before after)
    (found : layout.accesses[id]? = some (.rel place)) (isParam : id ∈ owner.params.map Param.id) :
    ∃ position : Nat, (owner.params.map Param.id)[position]? = some id ∧
      place.offset = 4 * position + 4 ∧ place.size = 4 := by
  obtain ⟨params, -⟩ := laid.body
  obtain ⟨position, at_⟩ := List.mem_iff_getElem?.mp isParam
  obtain ⟨param, paramAt, rfl⟩ := Option.map_eq_some_iff.mp (List.getElem?_map ▸ at_)
  cases Option.some.inj ((params position param paramAt).symm.trans found)
  exact ⟨position, at_, by simp only [paramAccess]; omega, rfl⟩

/-- A parameter lies above the access link. -/
theorem FunctionLaid.param (laid : FunctionLaid layout outer depth owner before after)
    (found : layout.accesses[id]? = some (.rel place)) (isParam : id ∈ owner.params.map Param.id) :
    place.size = 4 ∧ 4 ≤ place.offset ∧
      place.offset + place.size ≤ (layout.frameOf owner.id).parsSize := by
  obtain ⟨-, parsSize, -⟩ := laid.body
  obtain ⟨position, at_, offset, size⟩ := laid.exists_position found isParam
  have shorter := (List.getElem?_eq_some_iff.mp at_).1
  rw [List.length_map] at shorter
  refine ⟨size, ?_, ?_⟩ <;> omega

/-- A local variable has room for the words of its initializer between the end of the frame and
the header. -/
theorem FunctionLaid.local (laid : FunctionLaid layout outer depth owner before after)
    (fit : owner.LengthsFit)
    (found : layout.accesses[id]? = some (.rel place))
    (isLocal : id ∈ (localsOfStmts owner.body).map VarDef.id) :
    ∃ declared contents, declared ∈ localsOfStmts owner.body ∧ declared.id = id ∧
      Initializer.contents? declared.items = some contents ∧ place.size = 4 * contents.length ∧
      -(layout.frameOf owner.id).varsSize ≤ place.offset ∧
      place.offset + place.size ≤ -Frame.headerSize := by
  obtain ⟨declared, inside, rfl⟩ := List.mem_map.mp isLocal
  obtain ⟨access, contents, again, initial, size, low, high⟩ := (laid.stacked fit).inside inside
  cases Option.some.inj (again.symm.trans found)
  exact ⟨declared, contents, inside, rfl, initial, size, low, high⟩

/-- A variable or parameter has its place in the part of the frame for its kind. -/
theorem FunctionLaid.area (laid : FunctionLaid layout outer depth owner before after)
    (fit : owner.LengthsFit)
    (owns : layout.Owns owner id place) : layout.Area owner id place := by
  obtain ⟨found, isParam | isLocal⟩ := owns
  · obtain ⟨-, low, high⟩ := laid.param found isParam
    exact .inr ⟨isParam, low, high⟩
  · obtain ⟨-, -, -, -, -, -, low, high⟩ := laid.local fit found isLocal
    exact .inl ⟨isLocal, low, high⟩

/-- A variable or parameter has room for a word unless its initializer has none. -/
theorem FunctionLaid.four_le_iff (laid : FunctionLaid layout outer depth owner before after)
    (fit : owner.LengthsFit)
    (owns : layout.Owns owner id place) :
    4 ≤ place.size ↔ ∀ declared ∈ localsOfStmts owner.body, declared.id = id →
      Initializer.contents? declared.items ≠ some [] := by
  constructor
  · rintro long declared inside rfl empty
    obtain ⟨same, contents, found, initial, size, -⟩ := (laid.stacked fit).inside inside
    cases Option.some.inj (found.symm.trans owns.1)
    cases Option.some.inj (initial.symm.trans empty)
    rw [List.length_nil] at size
    omega
  · intro words
    obtain ⟨found, isParam | isLocal⟩ := owns
    · exact Int.le_of_eq (laid.param found isParam).1.symm
    · obtain ⟨declared, contents, inside, same, initial, size, -⟩ := laid.local fit found isLocal
      have nonempty : contents ≠ [] := fun empty => words declared inside same (empty ▸ initial)
      have positive := List.length_pos_iff.mpr nonempty
      omega

/-- Different variables and parameters of a function do not overlap. -/
theorem FunctionLaid.apart (laid : FunctionLaid layout outer depth owner before after)
    (fit : owner.LengthsFit)
    (owns : layout.Owns owner id place) (ownsOther : layout.Owns owner other otherPlace)
    (different : id ≠ other) :
    place.offset + place.size ≤ otherPlace.offset ∨
      otherPlace.offset + otherPlace.size ≤ place.offset := by
  -- parameters lie above the base of the frame and local variables below it
  obtain ⟨found, isParam | isLocal⟩ := owns <;>
    obtain ⟨otherFound, otherParam | otherLocal⟩ := ownsOther
  · obtain ⟨position, at_, offset, size⟩ := laid.exists_position found isParam
    obtain ⟨otherPosition, otherAt, otherOffset, otherSize⟩ :=
      laid.exists_position otherFound otherParam
    have apart : position ≠ otherPosition := by
      rintro rfl
      exact different (Option.some.inj (at_.symm.trans otherAt))
    omega
  · obtain ⟨-, low, -⟩ := laid.param found isParam
    obtain ⟨-, -, -, -, -, -, -, high⟩ := laid.local fit otherFound otherLocal
    rw [Frame.headerSize] at high
    omega
  · obtain ⟨-, low, -⟩ := laid.param otherFound otherParam
    obtain ⟨-, -, -, -, -, -, -, high⟩ := laid.local fit found isLocal
    rw [Frame.headerSize] at high
    omega
  · obtain ⟨one, inside, rfl⟩ := List.mem_map.mp isLocal
    obtain ⟨another, otherInside, rfl⟩ := List.mem_map.mp otherLocal
    exact (laid.stacked fit).apart inside otherInside different found otherFound

end Owns

end Layout

end ScopeStack
