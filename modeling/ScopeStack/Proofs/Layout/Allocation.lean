import Mathlib.Data.Finset.Card
import Mathlib.Data.Nat.Find
import ScopeStack.Layout
import ScopeStack.Proofs.Stateful
import Std.Data.String.ToNat

/-!
# Allocation of labels

`LabelSet.Finds` is the search for a label without any bound: it looks at one
candidate after another until one is free. The candidates for a name are all
different, so a set occupies at most as many of them as it has labels, and the
search ends after at most one probe more. The bound that `LabelSet.search`
carries therefore never cuts it short.

A label that is reserved is new, and it is the only one that is added. Labels
that are reserved one after another hence differ from each other and from those
that were there before, whatever names they are asked for.
-/

namespace ScopeStack

namespace LabelSet

variable {set : LabelSet} {base label : String} {index probes : Nat}

/-- Different candidates for a base name are different labels. -/
theorem candidate_injective {base : String} {first second : Nat}
    (same : candidate base first = candidate base second) : first = second := by
  have longer (index : Nat) : candidate base (index + 1) ≠ base := by
    intro equal
    have lengths := congrArg String.length equal
    simp only [candidate, String.length_append, show ("_" : String).length = 1 from rfl] at lengths
    omega
  cases first with
  | zero =>
    cases second with
    | zero => rfl
    | succ index => exact absurd same.symm (longer index)
  | succ index =>
    cases second with
    | zero => exact absurd same (longer index)
    | succ other =>
      simp only [candidate, String.append_right_inj] at same
      exact Nat.repr_injective same

/-- Looking at the candidates from number `index` on, the search finds a free
label with a number of probes. -/
inductive Finds (set : LabelSet) (base : String) : Nat → Nat → String → Prop where
  | free {index : Nat} (unused : candidate base index ∉ set) :
      Finds set base index 1 (candidate base index)
  | taken {index probes : Nat} {label : String} (used : candidate base index ∈ set)
      (later : Finds set base (index + 1) probes label) :
      Finds set base index (probes + 1) label

namespace Finds

/-- A search looks at one candidate at least. -/
theorem pos (finds : set.Finds base index probes label) : 0 < probes := by
  cases finds with
  | free => exact Nat.one_pos
  | taken => exact Nat.succ_pos _

/-- The label that is found is free. -/
theorem not_mem (finds : set.Finds base index probes label) : label ∉ set := by
  induction finds with
  | free unused => exact unused
  | taken _ _ hypothesis => exact hypothesis

/-- A bounded search that may make enough probes ends like the unbounded one. -/
theorem search_eq (finds : set.Finds base index probes label) {bound : Nat}
    (enough : probes ≤ bound + 1) : search set base bound index = label := by
  induction finds generalizing bound with
  | free unused =>
    cases bound with
    | zero => rfl
    | succ bound => rw [search, if_neg unused]
  | taken used later hypothesis =>
    have further := later.pos
    obtain ⟨bound, rfl⟩ : ∃ less, bound = less + 1 := ⟨bound - 1, by omega⟩
    rw [search, if_pos used]
    exact hypothesis (by omega)

/-- The search passes over occupied candidates to the first free one. -/
theorem of_least {offset : Nat} (used : ∀ earlier < offset, candidate base (index + earlier) ∈ set)
    (unused : candidate base (index + offset) ∉ set) :
    set.Finds base index (offset + 1) (candidate base (index + offset)) := by
  induction offset generalizing index with
  | zero => exact .free unused
  | succ offset hypothesis =>
    have shift (number : Nat) : index + (number + 1) = index + 1 + number := by omega
    rw [shift] at unused ⊢
    refine .taken (used 0 (Nat.succ_pos offset)) (hypothesis (fun earlier less => ?_) unused)
    rw [← shift]
    exact used (earlier + 1) (Nat.succ_lt_succ less)

end Finds

/-- Among one more candidate than a set has labels, one is free. -/
theorem exists_candidate_not_mem (set : LabelSet) (base : String) :
    ∃ index, index ≤ set.labels.toFinset.card ∧ candidate base index ∉ set := by
  by_contra none
  -- Otherwise all of them are among the labels of the set, and there are too many.
  have within : (Finset.range (set.labels.toFinset.card + 1)).image (candidate base) ⊆
      set.labels.toFinset := by
    intro label inside
    obtain ⟨index, below, rfl⟩ := Finset.mem_image.mp inside
    rw [Finset.mem_range] at below
    by_contra free
    exact none ⟨index, by omega, fun used => free (List.mem_toFinset.mpr used)⟩
  have bound := Finset.card_le_card within
  rw [Finset.card_image_of_injective _ fun _ _ => candidate_injective, Finset.card_range] at bound
  omega

/-- The search for a label ends at the first free candidate, whose number is at
most that of the labels in use. -/
theorem exists_finds (set : LabelSet) (base : String) :
    ∃ index, index ≤ set.labels.toFinset.card ∧ (∀ earlier < index, candidate base earlier ∈ set) ∧
      set.Finds base 0 (index + 1) (candidate base index) := by
  obtain ⟨index, bound, unused⟩ := exists_candidate_not_mem set base
  have free : ∃ index, candidate base index ∉ set := ⟨index, unused⟩
  have used : ∀ earlier < Nat.find free, candidate base earlier ∈ set := fun earlier less =>
    Decidable.not_not.mp (Nat.find_min free less)
  have finds : set.Finds base 0 (Nat.find free + 1) (candidate base (0 + Nat.find free)) :=
    .of_least (by simpa using used) (by simpa using Nat.find_spec free)
  rw [Nat.zero_add] at finds
  exact ⟨Nat.find free, (Nat.find_min' free unused).trans bound, used, finds⟩

/-- The label that a base name receives is the one that the search finds. -/
theorem free_eq (finds : set.Finds base 0 probes label)
    (bound : probes ≤ set.labels.toFinset.card + 1) : set.free base = label := by
  have fewer := List.toFinset_card_le set.labels
  exact finds.search_eq (by omega)

/-- The label that a base name receives is not in use. -/
theorem free_not_mem (set : LabelSet) (base : String) : set.free base ∉ set := by
  obtain ⟨index, bound, -, finds⟩ := exists_finds set base
  rw [free_eq finds (by omega)]
  exact finds.not_mem

/-- The label due to a base name: the name itself if it is free, and otherwise
the name with the least number from one on that makes it so. -/
inductive Due (set : LabelSet) (base : String) : String → Prop where
  | plain (free : base ∉ set) : Due set base base
  | numbered {number : Nat} (used : base ∈ set) (positive : 1 ≤ number)
      (free : base ++ "_" ++ toString number ∉ set)
      (least : ∀ less, 1 ≤ less → less < number → base ++ "_" ++ toString less ∈ set) :
      Due set base (base ++ "_" ++ toString number)

/-- The first free candidate is the label that is due. -/
theorem due_of_least (used : ∀ earlier < index, candidate base earlier ∈ set)
    (unused : candidate base index ∉ set) : set.Due base (candidate base index) := by
  cases index with
  | zero => exact .plain unused
  | succ index =>
    refine .numbered (used 0 (Nat.succ_pos index)) (Nat.succ_pos index) unused
      fun less positive below => ?_
    obtain ⟨number, rfl⟩ : ∃ number, less = number + 1 := ⟨less - 1, by omega⟩
    exact used (number + 1) below

/-- Labels that were not in a set have been added to it, each once. -/
structure Grows (before : LabelSet) (labels : List String) (after : LabelSet) : Prop where
  distinct : labels.Nodup
  fresh : ∀ label ∈ labels, label ∉ before
  mem_iff : ∀ label, label ∈ after ↔ label ∈ labels ∨ label ∈ before

/-- The labels in use after one more has been reserved. -/
theorem mem_reserve {other : String} :
    other ∈ (set.reserve base).2 ↔ other = (set.reserve base).1 ∨ other ∈ set :=
  List.mem_cons

/-- A label that is reserved first is not among those reserved later. -/
theorem Grows.cons {labels : List String} {after : LabelSet}
    (grows : Grows (set.reserve base).2 labels after) :
    Grows set ((set.reserve base).1 :: labels) after where
  distinct := List.nodup_cons.mpr
    ⟨fun again => grows.fresh _ again (mem_reserve.mpr (.inl rfl)), grows.distinct⟩
  fresh := by
    intro label inside
    rcases List.mem_cons.mp inside with rfl | later
    · exact free_not_mem set base
    · exact fun before => grows.fresh label later (mem_reserve.mpr (.inr before))
  mem_iff label := by
    rw [grows.mem_iff, mem_reserve, List.mem_cons]
    tauto

end LabelSet

/-- Reserving labels for names one after another gives each a new one. -/
theorem Layout.run_reserveLabels (bases : List String) (layout : Layout) (before : LabelSet) :
    ∃ labels after, (bases.mapM reserveLabel).run ⟨layout, before⟩ = .ok (labels, ⟨layout, after⟩) ∧
      labels.length = bases.length ∧ before.Grows labels after := by
  induction bases generalizing before with
  | nil => exact ⟨[], before, rfl, rfl, .nil, nofun, fun label => by simp⟩
  | cons base rest hypothesis =>
    obtain ⟨labels, after, ran, length, grows⟩ := hypothesis (before.reserve base).2
    refine ⟨_ :: labels, after, ?_, by rw [List.length_cons, length, List.length_cons], grows.cons⟩
    rw [List.mapM_cons]
    refine Stateful.run_bind_eq_ok.mpr ⟨_, ⟨layout, _⟩, rfl, ?_⟩
    exact Stateful.run_bind_eq_ok.mpr ⟨labels, _, ran, rfl⟩

/-- Reserving a label looks at no more candidates than one more than there are
labels in use. It gives a name itself if that is free and otherwise the name
with the least number that makes it free, and adds this label and no other.
Hence all labels that are reserved one after another, starting from the names
of the services, differ from each other and from these. -/
theorem labels_fresh_and_least :
    (∀ (set : LabelSet) (base : String),
      let label := (set.reserve base).1
      (∃ probes, probes ≤ set.labels.toFinset.card + 1 ∧ set.Finds base 0 probes label) ∧
        set.Due base label ∧ label ∉ set ∧
        ∀ other, other ∈ (set.reserve base).2 ↔ other = label ∨ other ∈ set) ∧
    ∀ (bases : List String) (layout : Layout), ∃ labels after,
      (bases.mapM Layout.reserveLabel).run ⟨layout, Layout.serviceLabels⟩ =
          .ok (labels, ⟨layout, after⟩) ∧
        labels.length = bases.length ∧ labels.Nodup ∧
        (∀ label ∈ labels, ∀ service : Service, label ≠ service.name) ∧
        ∀ label, label ∈ after ↔ label ∈ labels ∨ ∃ service : Service, label = service.name := by
  constructor
  · intro set base label
    obtain ⟨index, bound, used, finds⟩ := LabelSet.exists_finds set base
    have found : label = LabelSet.candidate base index := LabelSet.free_eq finds (by omega)
    rw [found]
    refine ⟨⟨index + 1, by omega, finds⟩, LabelSet.due_of_least used finds.not_mem,
      finds.not_mem, ?_⟩
    rw [← found]
    exact fun other => LabelSet.mem_reserve
  · intro bases layout
    have services (label : String) :
        label ∈ Layout.serviceLabels ↔ ∃ service : Service, label = service.name := by
      constructor
      · intro inside
        obtain ⟨service, -, rfl⟩ := List.mem_map.mp inside
        exact ⟨service, rfl⟩
      · rintro ⟨service, rfl⟩
        exact List.mem_map.mpr ⟨service, by cases service <;> decide, rfl⟩
    obtain ⟨labels, after, ran, length, grows⟩ :=
      Layout.run_reserveLabels bases layout Layout.serviceLabels
    refine ⟨labels, after, ran, length, grows.distinct, fun label inside service same => ?_, ?_⟩
    · exact grows.fresh label inside ((services label).mpr ⟨service, same⟩)
    · intro label
      rw [grows.mem_iff, services]

-- A name may look like the label of another.
example : ((["f", "f_1", "f", "f_1", "exit"].mapM Layout.reserveLabel).run
    ⟨.empty, Layout.serviceLabels⟩).map Prod.fst =
      .ok ["f", "f_1", "f_2", "f_1_1", "exit_1"] := by
  rfl

end ScopeStack
