import ScopeStack.Proofs.Emission.ClosedForm
import ScopeStack.Proofs.Stateful

/-!
# What emission leaves behind

An `Output` is what emitting a piece of a program contributes: the numbers
whose entries change, the data blocks and branching statements that receive
the next numbers, the code of the functions inside and the instructions of the
piece itself. `Emitted` says that a computation went from one state to another
with a given output. Outputs are put together by `++`, just as computations are
run one after another, so the state is described once for every primitive step
and once for sequences, in `Emitted.trans`.
-/

namespace ScopeStack

/-- The instructions of code, without their places in the source. -/
def Code.items (code : Code) : List Instr := code.map Located.item

/-- No code has no instructions. -/
@[simp] theorem Code.items_nil : Code.items [] = [] := rfl

/-- The instructions of two pieces of code are those of the first and then those of the second.
-/
@[simp] theorem Code.items_append (first second : Code) :
    Code.items (first ++ second) = Code.items first ++ Code.items second := by
  simp [Code.items]

/-- Giving instructions a place in the source does not change them. -/
@[simp] theorem Code.items_codeAt (span : Option Span) (instrs : List Instr) :
    Code.items (codeAt span instrs) = instrs := by
  simp [Code.items, codeAt, Function.comp_def]

namespace Emission

open Stateful

/-- Numbers are given to nodes one after another. -/
def Numbered (number : NodeId → Nat) (start : Nat) (ids : List NodeId) : Prop :=
  ∀ (index : Nat) (id : NodeId), ids[index]? = some id → number id = start + index

/-- Two stretches are numbered on if the second goes on where the first ends. -/
theorem numbered_append {number : NodeId → Nat} {start : Nat} {first second : List NodeId} :
    Numbered number start (first ++ second) ↔
      Numbered number start first ∧ Numbered number (start + first.length) second := by
  constructor
  · intro numbered
    constructor
    · intro index id found
      obtain ⟨below, -⟩ := List.getElem?_eq_some_iff.mp found
      exact numbered index id (by rw [List.getElem?_append_left below, found])
    · intro index id found
      rw [Nat.add_assoc]
      apply numbered (first.length + index) id
      rw [List.getElem?_append_right (by omega), Nat.add_sub_cancel_left, found]
  · rintro ⟨numberedFirst, numberedSecond⟩ index id found
    by_cases below : index < first.length
    · rw [List.getElem?_append_left below] at found
      exact numberedFirst index id found
    · rw [List.getElem?_append_right (by omega)] at found
      rw [numberedSecond _ id found]
      omega

/-- Nothing needs no numbers. -/
theorem numbered_nil (number : NodeId → Nat) (start : Nat) : Numbered number start [] := by
  intro index id found
  simp at found

/-- A single node has the first number. -/
theorem numbered_singleton {number : NodeId → Nat} {start : Nat} {id : NodeId} :
    Numbered number start [id] ↔ number id = start := by
  constructor
  · intro numbered
    exact numbered 0 id rfl
  · intro same index other found
    cases index with
    | zero =>
      cases found
      exact same
    | succ index => simp at found

/-- In a list without repetitions the positions are such numbers. -/
theorem numbered_idxOf {ids : List NodeId} (distinct : ids.Nodup) :
    Numbered (fun id => ids.idxOf id) 0 ids := by
  intro index id found
  obtain ⟨below, rfl⟩ := List.getElem?_eq_some_iff.mp found
  change ids.idxOf _ = _
  rw [Nat.zero_add, distinct.idxOf_getElem]

/-- What emitting a piece of a program contributes. -/
structure Output where
  /-- The numbers whose entries may change. -/
  touched : List NodeId
  data : List DataBlock
  /-- The statements that receive the next branch numbers. -/
  branches : List NodeId
  /-- The code of the functions inside. -/
  blocks : Naming → List CodeBlock
  /-- The code of the piece itself. -/
  instrs : Naming → List Instr

namespace Output

instance : Append Output where
  append first second :=
    { touched := first.touched ++ second.touched
      data := first.data ++ second.data
      branches := first.branches ++ second.branches
      blocks naming := first.blocks naming ++ second.blocks naming
      instrs naming := first.instrs naming ++ second.instrs naming }

/-- Instructions alone. -/
def ofInstrs (instrs : List Instr) : Output := ⟨[], [], [], fun _ => [], fun _ => instrs⟩

/-- An entry in a table. -/
def ofEntry (id : NodeId) : Output := ⟨[id], [], [], fun _ => [], fun _ => []⟩

/-- A branch number. -/
def ofBranch (id : NodeId) : Output := ⟨[], [], [id], fun _ => [], fun _ => []⟩

/-- A data block. -/
def ofData (own : DataBlock) : Output := ⟨[own.id], [own], [], fun _ => [], fun _ => []⟩

end Output

/-- The numbers of constants and branches go on from those of a state. -/
def Naming.Continues (naming : Naming) (progress : Progress) (output : Output) : Prop :=
  Numbered naming.constant progress.nextConstant (output.data.map DataBlock.id) ∧
    Numbered naming.branch progress.nextBranch output.branches

/-- The data of a node have been entered. -/
def HasData (progress : Progress) (naming : Naming) (own : DataBlock) : Prop :=
  ((progress.data[own.id]?).getD []).map Located.item = own.items naming

/-- The code of a function has been entered. -/
def HasCode (progress : Progress) (own : CodeBlock) : Prop :=
  Code.items ((progress.code[own.id]?).getD []) = own.instrs

/-- Two states have the same entries for given numbers. -/
def AgreeOn (ids : List NodeId) (left right : Progress) : Prop :=
  ∀ id ∈ ids, left.code[id]? = right.code[id]? ∧ left.data[id]? = right.data[id]?

/-- No code has been entered for given numbers. -/
def Fresh (ids : List NodeId) (progress : Progress) : Prop := ∀ id ∈ ids, progress.code[id]? = none

/-- A computation has gone from one state to another with a given output and
returned code. -/
structure Emitted (output : Output) (before after : Progress) (code : Code) : Prop where
  untouched : ∀ id, id ∉ output.touched →
    after.code[id]? = before.code[id]? ∧ after.data[id]? = before.data[id]?
  order : after.dataOrder = before.dataOrder ++ output.data.map DataBlock.id
  constants : after.nextConstant = before.nextConstant + output.data.length
  branches : after.nextBranch = before.nextBranch + output.branches.length
  shape : ∀ naming : Naming, naming.Continues before output → Code.items code = output.instrs naming
  /-- The entries made are there as long as nothing else touches them. -/
  entries : ∀ (naming : Naming) (final : Progress), output.touched.Nodup →
    AgreeOn output.touched final after → naming.Continues before output →
    (∀ own ∈ output.data, HasData final naming own) ∧
      ∀ own ∈ output.blocks naming, HasCode final own

namespace Emitted

variable {first second output : Output} {before middle after : Progress}
  {code firstCode secondCode : Code}

/-- The numbers of the second of two outputs go on where the first ended. -/
theorem continues_append (emitted : Emitted first before middle firstCode) {naming : Naming}
    (continues : naming.Continues before (first ++ second)) :
    naming.Continues before first ∧ naming.Continues middle second := by
  obtain ⟨constants, branches⟩ := continues
  change Numbered _ _ ((first.data ++ second.data).map DataBlock.id) at constants
  change Numbered _ _ (first.branches ++ second.branches) at branches
  rw [List.map_append, numbered_append, List.length_map, ← emitted.constants] at constants
  rw [numbered_append, ← emitted.branches] at branches
  exact ⟨⟨constants.1, branches.1⟩, constants.2, branches.2⟩

/-- Two computations in a row. -/
theorem trans (emitted : Emitted first before middle firstCode)
    (emittedNext : Emitted second middle after secondCode) :
    Emitted (first ++ second) before after (firstCode ++ secondCode) where
  untouched := by
    intro id outside
    change id ∉ first.touched ++ second.touched at outside
    rw [List.mem_append, not_or] at outside
    have atFirst := emitted.untouched id outside.1
    have atSecond := emittedNext.untouched id outside.2
    exact ⟨atSecond.1.trans atFirst.1, atSecond.2.trans atFirst.2⟩
  order := by
    change _ = _ ++ (first.data ++ second.data).map DataBlock.id
    rw [emittedNext.order, emitted.order, List.map_append, List.append_assoc]
  constants := by
    change _ = _ + (first.data ++ second.data).length
    rw [emittedNext.constants, emitted.constants, List.length_append, Nat.add_assoc]
  branches := by
    change _ = _ + (first.branches ++ second.branches).length
    rw [emittedNext.branches, emitted.branches, List.length_append, Nat.add_assoc]
  shape := by
    intro naming continues
    obtain ⟨continuesFirst, continuesSecond⟩ := emitted.continues_append continues
    change _ = first.instrs naming ++ second.instrs naming
    rw [Code.items_append, emitted.shape naming continuesFirst,
      emittedNext.shape naming continuesSecond]
  entries := by
    intro naming final distinct agree continues
    obtain ⟨continuesFirst, continuesSecond⟩ := emitted.continues_append continues
    change (first.touched ++ second.touched).Nodup at distinct
    change AgreeOn (first.touched ++ second.touched) final after at agree
    rw [List.nodup_append] at distinct
    obtain ⟨distinctFirst, distinctSecond, apart⟩ := distinct
    -- The second computation does not touch what the first has entered.
    have agreeFirst : AgreeOn first.touched final middle := by
      intro id inside
      have kept := emittedNext.untouched id fun inSecond => apart id inside id inSecond rfl
      have atEnd := agree id (List.mem_append_left _ inside)
      exact ⟨atEnd.1.trans kept.1, atEnd.2.trans kept.2⟩
    have atFirst := emitted.entries naming final distinctFirst agreeFirst continuesFirst
    have atSecond := emittedNext.entries naming final distinctSecond
      (fun id inside => agree id (List.mem_append_right _ inside)) continuesSecond
    constructor
    · intro own inside
      rcases List.mem_append.mp inside with inFirst | inSecond
      · exact atFirst.1 own inFirst
      · exact atSecond.1 own inSecond
    · intro own inside
      rcases List.mem_append.mp inside with inFirst | inSecond
      · exact atFirst.2 own inFirst
      · exact atSecond.2 own inSecond

/-- An output may be described differently: with more numbers, with the same
data and branches, with fewer functions, and with other words for the same
instructions. -/
theorem recast (emitted : Emitted first before after code)
    (touched : ∀ id, first.touched.count id ≤ second.touched.count id)
    (data : second.data = first.data) (branches : second.branches = first.branches)
    (blocks : ∀ naming own, own ∈ second.blocks naming → own ∈ first.blocks naming)
    (instrs : ∀ naming : Naming, naming.Continues before first →
      first.instrs naming = second.instrs naming) :
    Emitted second before after code := by
  have within := mem_of_count_le touched
  have same {naming : Naming} : naming.Continues before second ↔ naming.Continues before first := by
    rw [Naming.Continues, Naming.Continues, data, branches]
  refine ⟨?_, ?_, ?_, ?_, ?_, ?_⟩
  · intro id outside
    exact emitted.untouched id fun inside => outside (within id inside)
  · rw [emitted.order, data]
  · rw [emitted.constants, data]
  · rw [emitted.branches, branches]
  · intro naming continues
    rw [emitted.shape naming (same.mp continues), instrs naming (same.mp continues)]
  · intro naming final distinct agree continues
    have entered := emitted.entries naming final (nodup_of_count_le distinct touched)
      (fun id inside => agree id (within id inside)) (same.mp continues)
    rw [data]
    exact ⟨entered.1, fun own inside => entered.2 own (blocks naming own inside)⟩

/-- A computation that does nothing. -/
theorem nothing (progress : Progress) : Emitted (.ofInstrs []) progress progress [] where
  untouched _ _ := ⟨rfl, rfl⟩
  order := by simp [Output.ofInstrs]
  constants := rfl
  branches := rfl
  shape _ _ := rfl
  entries _ _ _ _ _ := ⟨fun _ inside => (nomatch inside), fun _ inside => (nomatch inside)⟩

/-- Instructions may be added to what a computation returns. -/
theorem append (emitted : Emitted output before after code) (span : Option Span)
    (instrs : List Instr) :
    Emitted (output ++ .ofInstrs instrs) before after (code ++ codeAt span instrs) := by
  refine emitted.trans ?_
  exact {
    untouched := fun _ _ => ⟨rfl, rfl⟩
    order := by simp [Output.ofInstrs]
    constants := rfl
    branches := rfl
    shape := fun _ _ => Code.items_codeAt span instrs
    entries := fun _ _ _ _ _ =>
      ⟨fun _ inside => (nomatch inside), fun _ inside => (nomatch inside)⟩ }

end Emitted

end Emission

end ScopeStack
