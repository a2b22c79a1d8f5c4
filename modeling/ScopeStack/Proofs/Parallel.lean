import ScopeStack.Proofs.Stateful

/-!
# Two computations side by side

`Parallel` relates two computations with states that can fail: from related states both succeed
with related values and states, or both fail with related errors. It is put together along the
steps of the computations, like `Settles`, so that two runs of one algorithm on related inputs are
compared without taking either run apart.
-/

namespace ScopeStack

variable {ε ε' α α' β β' σ σ' : Type}

/-- Two results are alike: both are values or both are errors, and what they hold is related. -/
inductive Alike (errors : ε → ε' → Prop) (values : α → α' → Prop) :
    Except ε α → Except ε' α' → Prop
  | ok {value : α} {other : α'} (related : values value other) :
    Alike errors values (.ok value) (.ok other)
  | error {cause : ε} {other : ε'} (related : errors cause other) :
    Alike errors values (.error cause) (.error other)

namespace Alike

variable {errors : ε → ε' → Prop} {values : α → α' → Prop} {results : β → β' → Prop}

/-- A result is like itself. -/
theorem refl (result : Except ε α) : Alike Eq Eq result result := by
  cases result with
  | ok value => exact .ok rfl
  | error cause => exact .error rfl

/-- Results that are alike are so for weaker relations. -/
theorem mono {left : Except ε α} {right : Except ε' α'} {moreErrors : ε → ε' → Prop}
    {moreValues : α → α' → Prop} (alike : Alike errors values left right)
    (impliesErrors : ∀ cause other, errors cause other → moreErrors cause other)
    (impliesValues : ∀ value other, values value other → moreValues value other) :
    Alike moreErrors moreValues left right := by
  cases alike with
  | ok related => exact .ok (impliesValues _ _ related)
  | error related => exact .error (impliesErrors _ _ related)

/-- Two computations in a row are alike if the first are and the second are from related
values. -/
theorem bind {first : Except ε α} {first' : Except ε' α'} {second : α → Except ε β}
    {second' : α' → Except ε' β'} (alike : Alike errors values first first')
    (continued : ∀ value other, values value other →
      Alike errors results (second value) (second' other)) :
    Alike errors results (first >>= second) (first' >>= second') := by
  cases alike with
  | ok related => exact continued _ _ related
  | error related => exact .error related

/-- Errors may be renamed on both sides. -/
theorem mapError {δ δ' : Type} {renamed : δ → δ' → Prop} {left : Except ε α}
    {right : Except ε' α'} {rename : ε → δ} {rename' : ε' → δ'}
    (alike : Alike errors values left right)
    (related : ∀ cause other, errors cause other → renamed (rename cause) (rename' other)) :
    Alike renamed values (left.mapError rename) (right.mapError rename') := by
  cases alike with
  | ok same => exact .ok same
  | error same => exact .error (related _ _ same)

/-- If one of two results that are alike is a value, then so is the other one. -/
theorem exists_ok {left : Except ε α} {right : Except ε' α'}
    (alike : Alike errors values left right) (succeeds : left.toOption.isSome = true) :
    ∃ value other, left = .ok value ∧ right = .ok other ∧ values value other := by
  cases alike with
  | ok related => exact ⟨_, _, rfl, rfl, related⟩
  | error related => cases succeeds

end Alike

/-- From related states two computations have results that are alike, with related states. -/
def Parallel (errors : ε → ε' → Prop) (states : σ → σ' → Prop) (values : α → α' → Prop)
    (left : StateT σ (Except ε) α) (right : StateT σ' (Except ε') α') : Prop :=
  ∀ before before', states before before' →
    Alike errors (fun result other => values result.1 other.1 ∧ states result.2 other.2)
      (left.run before) (right.run before')

namespace Parallel

variable {errors : ε → ε' → Prop} {states : σ → σ' → Prop} {values : α → α' → Prop}
  {results : β → β' → Prop}

/-- Giving related values runs in parallel. -/
theorem pure {value : α} {other : α'} (related : values value other) :
    Parallel errors states values (pure value) (pure other) :=
  fun _ _ start => .ok ⟨related, start⟩

/-- Computations that run in parallel may be followed by others that do. -/
theorem bind {first : StateT σ (Except ε) α} {first' : StateT σ' (Except ε') α'}
    {second : α → StateT σ (Except ε) β} {second' : α' → StateT σ' (Except ε') β'}
    (parallel : Parallel errors states values first first')
    (continued : ∀ value other, values value other →
      Parallel errors states results (second value) (second' other)) :
    Parallel errors states results (first >>= second) (first' >>= second') := by
  intro before before' start
  rw [StateT.run_bind, StateT.run_bind]
  exact (parallel before before' start).bind fun result other related =>
    continued _ _ related.1 _ _ related.2

/-- A computation whose value does not matter may come first. -/
theorem seq {first : StateT σ (Except ε) α} {first' : StateT σ' (Except ε') α'}
    {second : α → StateT σ (Except ε) β} {second' : α' → StateT σ' (Except ε') β'}
    (parallel : Parallel errors states (fun _ _ => True) first first')
    (continued : ∀ value other, Parallel errors states results (second value) (second' other)) :
    Parallel errors states results (first >>= second) (first' >>= second') :=
  parallel.bind fun value other _ => continued value other

/-- Looking at related states runs in parallel. -/
theorem get : Parallel errors states states get get := fun _ _ start => .ok ⟨start, start⟩

/-- Changes that keep states related run in parallel. -/
theorem modify {change : σ → σ} {change' : σ' → σ'}
    (related : ∀ before before', states before before' → states (change before) (change' before')) :
    Parallel errors states (fun _ _ => True) (modify change) (modify change') :=
  fun _ _ start => .ok ⟨trivial, related _ _ start⟩

/-- Changes that keep states related and give related values run in parallel. -/
theorem modifyGet {change : σ → α × σ} {change' : σ' → α' × σ'}
    (related : ∀ before before', states before before' →
      values (change before).1 (change' before').1 ∧
        states (change before).2 (change' before').2) :
    Parallel errors states values (modifyGet change) (modifyGet change') :=
  fun _ _ start => .ok (related _ _ start)

/-- Computations without a state are alike with one if they are without. -/
theorem lift {left : Except ε α} {right : Except ε' α'} (alike : Alike errors values left right) :
    Parallel errors states values (liftM left) (liftM right) := by
  intro before before' start
  cases alike with
  | ok related => exact .ok ⟨related, start⟩
  | error related => exact .error related

/-- Failing for related causes runs in parallel. -/
theorem throw {cause : ε} {other : ε'} (related : errors cause other) :
    Parallel errors states values (throw cause) (throw other) :=
  fun _ _ _ => .error related

end Parallel

end ScopeStack
