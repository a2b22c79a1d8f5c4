/-!
# Computations with a state that can fail

Layout and emission are computations with a state that stop at the first
error. The lemmas here take a successful run apart: `run_bind_eq_ok` splits it
at a bind, and the others say what the primitive steps do. `Settles` says when a
computation succeeds and how it may fail; it is put together along the same
steps.
-/

namespace ScopeStack.Stateful

variable {σ ε α β : Type}

/-- A sequence succeeds when its first part does and the second part goes on
from there. -/
theorem run_bind_eq_ok {first : StateT σ (Except ε) α} {second : α → StateT σ (Except ε) β}
    {before : σ} {result : β × σ} :
    (first >>= second).run before = .ok result ↔
      ∃ value middle, first.run before = .ok (value, middle) ∧
        (second value).run middle = .ok result := by
  rw [StateT.run_bind]
  cases ran : first.run before with
  | error cause => simp [bind, Except.bind]
  | ok pair =>
    obtain ⟨value, middle⟩ := pair
    constructor
    · intro continued
      exact ⟨value, middle, rfl, continued⟩
    · rintro ⟨value', middle', same, continued⟩
      cases same
      exact continued

/-- What giving a value results in. -/
@[simp] theorem run_pure_eq_ok {value : α} {before : σ} {result : α × σ} :
    (pure value : StateT σ (Except ε) α).run before = .ok result ↔ result = (value, before) := by
  rw [StateT.run_pure]
  exact ⟨fun same => (Except.ok.inj same).symm, fun same => same ▸ rfl⟩

/-- What looking at the state results in. -/
@[simp] theorem run_get_eq_ok {before : σ} {result : σ × σ} :
    (get : StateT σ (Except ε) σ).run before = .ok result ↔ result = (before, before) := by
  rw [StateT.run_get]
  exact ⟨fun same => (Except.ok.inj same).symm, fun same => same ▸ rfl⟩

/-- What changing the state results in. -/
@[simp] theorem run_modify_eq_ok {change : σ → σ} {before : σ} {result : PUnit × σ} :
    (modify change : StateT σ (Except ε) PUnit).run before = .ok result ↔
      result = (⟨⟩, change before) := by
  rw [StateT.run_modify]
  exact ⟨fun same => (Except.ok.inj same).symm, fun same => same ▸ rfl⟩

/-- What changing the state and giving a value results in. -/
@[simp] theorem run_modifyGet_eq_ok {change : σ → α × σ} {before : σ} {result : α × σ} :
    (modifyGet change : StateT σ (Except ε) α).run before = .ok result ↔ result = change before := by
  rw [StateT.run_modifyGet]
  exact ⟨fun same => (Except.ok.inj same).symm, fun same => same ▸ rfl⟩

/-- A computation without a state leaves the state alone. -/
@[simp] theorem run_lift_eq_ok {attempt : Except ε α} {before : σ} {result : α × σ} :
    (liftM attempt : StateT σ (Except ε) α).run before = .ok result ↔
      ∃ value, attempt = .ok value ∧ result = (value, before) := by
  cases attempt with
  | error cause =>
    constructor
    · intro failed
      cases failed
    · rintro ⟨value, same, -⟩
      cases same
  | ok value =>
    constructor
    · intro same
      exact ⟨value, rfl, (Except.ok.inj same).symm⟩
    · rintro ⟨value', same, rfl⟩
      cases same
      rfl

/-- What an attempt that succeeds results in. -/
theorem run_lift_of_ok {attempt : Except ε α} {value : α} (succeeds : attempt = .ok value)
    (before : σ) : (liftM attempt : StateT σ (Except ε) α).run before = .ok (value, before) :=
  run_lift_eq_ok.mpr ⟨value, succeeds, rfl⟩

/-- A computation that throws does not succeed. -/
@[simp] theorem run_throw_eq_ok {cause : ε} {before : σ} {result : α × σ} :
    (throw cause : StateT σ (Except ε) α).run before = .ok result ↔ False :=
  ⟨(nomatch ·), False.elim⟩

/-- A computation succeeds if and only if a condition holds, and otherwise
fails with an expected error. -/
def Settles (expected : ε → Prop) (condition : Prop) : Except ε α → Prop
  | .ok _ => condition
  | .error cause => ¬condition ∧ expected cause

namespace Settles

variable {expected : ε → Prop} {condition other : Prop}

/-- An outcome that settles a condition settles an equivalent one. -/
theorem congr {outcome : Except ε α} (settles : Settles expected condition outcome)
    (same : condition ↔ other) : Settles expected other outcome := by
  cases outcome with
  | ok value => exact same.mp settles
  | error cause => exact ⟨fun holds => settles.1 (same.mpr holds), settles.2⟩

/-- A computation that succeeds settles what is true. -/
theorem of_ok {outcome : Except ε α} {value : α} (succeeds : outcome = .ok value) :
    Settles expected True outcome := by
  subst succeeds
  exact trivial

/-- A computation without a state settles the same with one. -/
theorem lift {attempt : Except ε α} (settles : Settles expected condition attempt) (before : σ) :
    Settles expected condition ((liftM attempt : StateT σ (Except ε) α).run before) := by
  cases attempt with
  | ok value => exact settles
  | error cause => exact settles

/-- Two computations in a row succeed if and only if both do. -/
theorem bind {first : StateT σ (Except ε) α} {second : α → StateT σ (Except ε) β} {before : σ}
    (settlesFirst : Settles expected condition (first.run before))
    (settlesSecond : ∀ value middle, first.run before = .ok (value, middle) →
      Settles expected other ((second value).run middle)) :
    Settles expected (condition ∧ other) ((first >>= second).run before) := by
  rw [StateT.run_bind]
  cases ran : first.run before with
  | error cause =>
    rw [ran] at settlesFirst
    exact ⟨fun both => settlesFirst.1 both.1, settlesFirst.2⟩
  | ok pair =>
    obtain ⟨value, middle⟩ := pair
    rw [ran] at settlesFirst
    have settles := settlesSecond value middle ran
    exact settles.congr ⟨fun holds => ⟨settlesFirst, holds⟩, And.right⟩

/-- A first computation that succeeds may be left out. -/
theorem bind_of_ok {first : StateT σ (Except ε) α} {second : α → StateT σ (Except ε) β}
    {before middle : σ} {value : α} (succeeds : first.run before = .ok (value, middle))
    (settles : Settles expected condition ((second value).run middle)) :
    Settles expected condition ((first >>= second).run before) := by
  rw [StateT.run_bind, succeeds]
  exact settles

/-- A second computation that succeeds may be left out. -/
theorem bind_ok {first : StateT σ (Except ε) α} {second : α → StateT σ (Except ε) β} {before : σ}
    (settles : Settles expected condition (first.run before))
    (succeeds : ∀ value middle, ∃ result, (second value).run middle = .ok result) :
    Settles expected condition ((first >>= second).run before) := by
  refine (settles.bind fun value middle _ => ?_).congr (iff_of_eq (and_true _))
  obtain ⟨result, done⟩ := succeeds value middle
  exact of_ok done

end Settles

end ScopeStack.Stateful

namespace ScopeStack

/-- Renaming the error does not change when a computation succeeds. -/
@[simp] theorem mapError_eq_ok_iff {ε ε' α : Type} {attempt : Except ε α} {rename : ε → ε'} {value : α} :
    attempt.mapError rename = .ok value ↔ attempt = .ok value := by
  cases attempt with
  | error cause => exact ⟨nofun, nofun⟩
  | ok result =>
    constructor
    · intro same
      cases same
      rfl
    · intro same
      cases same
      rfl

/-- A computation that gives a value succeeds with it. -/
theorem eq_ok_of_toOption {ε α : Type} {attempt : Except ε α} {value : α}
    (gives : attempt.toOption = some value) : attempt = .ok value := by
  cases attempt with
  | ok result =>
    cases gives
    rfl
  | error cause => cases gives

end ScopeStack
