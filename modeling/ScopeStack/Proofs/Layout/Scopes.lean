import ScopeStack.Proofs.Layout.Entries
import ScopeStack.Proofs.Scope

/-!
# The layout of what is visible

`Scope.Laid` says that the definitions around a point of a program have their
places, and gives the frames of the functions around it. The depth that a
layout records is that of the scope, so that the frame which holds a visible
variable is the innermost that is not deeper than the variable.
-/

namespace ScopeStack

namespace Layout

/-- A variable among the definitions of a block has been laid out. -/
theorem localLaid_of_mem {layout : Layout} {label : String} {depth : Nat} {defs : List Def}
    {before after : Extent} {declared : VarDef}
    (laid : DefsLaid layout label depth defs before after)
    (inside : declared ∈ variablesIn defs) :
    ∃ first last, LocalLaid layout depth declared first last := by
  induction defs generalizing before with
  | nil => cases inside
  | cons definition rest hypothesis =>
    cases definition with
    | fn function =>
      obtain ⟨_, -, remaining⟩ := laid
      exact hypothesis remaining inside
    | var own =>
      obtain ⟨locals, placed, remaining⟩ := laid
      rcases List.mem_cons.mp inside with rfl | later
      · exact ⟨before.locals, locals, placed⟩
      · exact hypothesis remaining later

/-- A function among the definitions of a block has been laid out. -/
theorem functionLaid_of_mem_block {layout : Layout} {label : String} {depth : Nat}
    {defs : List Def} {before after : Extent} {function : FunDef}
    (laid : DefsLaid layout label depth defs before after)
    (inside : function ∈ functionsIn defs) :
    ∃ first last, FunctionLaid layout (some label) depth function first last := by
  induction defs generalizing before with
  | nil => cases inside
  | cons definition rest hypothesis =>
    cases definition with
    | fn own =>
      obtain ⟨labels, placed, remaining⟩ := laid
      rcases List.mem_cons.mp inside with rfl | later
      · exact ⟨before.labels, labels, placed⟩
      · exact hypothesis remaining later
    | var declared =>
      obtain ⟨_, -, remaining⟩ := laid
      exact hypothesis remaining inside

/-- A function at the top level has been laid out. -/
theorem functionLaid_of_mem_functionsIn {layout : Layout} {globals : Table String}
    {defs : List Def} {before after : LabelSet} {function : FunDef}
    (laid : TopLaid layout globals defs before after) (inside : function ∈ functionsIn defs) :
    ∃ first last, FunctionLaid layout none 0 function first last := by
  induction defs generalizing before with
  | nil => cases inside
  | cons definition rest hypothesis =>
    cases definition with
    | fn own =>
      obtain ⟨labels, placed, remaining⟩ := laid
      rcases List.mem_cons.mp inside with rfl | later
      · exact ⟨before, labels, placed⟩
      · exact hypothesis remaining later
    | var declared => exact hypothesis laid.2 inside

/-- The depth of the frame of a function. -/
theorem FunctionLaid.frame {layout : Layout} {outer : Option String} {depth : Nat}
    {function : FunDef} {before after : LabelSet}
    (laid : FunctionLaid layout outer depth function before after) :
    ∃ frame, layout.frames[function.id]? = some frame ∧ frame.depth = depth + 1 := by
  obtain ⟨id, name, params, body⟩ := function
  obtain ⟨-, label, labels, locals, -, -, entered⟩ := laid
  exact ⟨_, entered, rfl⟩

end Layout

namespace Scope

/-- What is visible has been laid out, and the functions around have given
frames. -/
def Laid (layout : Layout) : Scope → List Frame → Prop
  | .top defs, frames =>
    frames = [] ∧ ∃ globals before after, layout.TopLaid globals defs before after
  | .enter function outer, frames =>
    ∃ frame rest, frames = frame :: rest ∧ layout.frames[function.id]? = some frame ∧
      frame.depth = outer.depth + 1 ∧ layout.ParamsLaid (outer.depth + 1) function.params ∧
      outer.Laid layout rest
  | .block defs outer, frames =>
    frames ≠ [] ∧ (∃ label before after, layout.DefsLaid label (outer.depth + 1) defs before after) ∧
      outer.Laid layout frames

variable {layout : Layout}

/-- The scope inside a function. -/
theorem Laid.enter {outer : Scope} {frames : List Frame} {label : Option String}
    {function : FunDef} {before after : LabelSet} (laid : outer.Laid layout frames)
    (own : layout.FunctionLaid label outer.depth function before after) :
    (Scope.enter function outer).Laid layout (layout.frameOf function.id :: frames) := by
  obtain ⟨frame, framed, deep⟩ := own.frame
  obtain ⟨id, name, params, body⟩ := function
  exact ⟨frame, frames, by rw [Layout.frameOf_eq framed], framed, deep, own.1, laid⟩

/-- No function around a point is deeper than the point. -/
theorem Laid.depth_le {scope : Scope} {frames : List Frame} (laid : scope.Laid layout frames)
    {frame : Frame} (inside : frame ∈ frames) : frame.depth ≤ scope.depth := by
  induction scope generalizing frames with
  | top defs =>
    obtain ⟨rfl, -⟩ := laid
    cases inside
  | enter function outer hypothesis =>
    obtain ⟨own, rest, rfl, -, deep, -, laidOuter⟩ := laid
    rw [Scope.depth]
    rcases List.mem_cons.mp inside with rfl | later
    · exact Nat.le_of_eq deep
    · exact Nat.le_succ_of_le (hypothesis laidOuter later)
  | block defs outer hypothesis =>
    exact Nat.le_succ_of_le (hypothesis laid.2.2 inside)

/-- A visible variable is global or belongs to the frame of a function
around. -/
theorem Laid.variable {scope : Scope} {frames : List Frame} (laid : scope.Laid layout frames)
    {target : NodeId} (visible : target ∈ scope.variableIds) :
    (∃ access : AbsAccess, layout.accesses[target]? = some (.abs access)) ∨
      ∃ access : RelAccess, layout.accesses[target]? = some (.rel access) ∧
        access.depth ≤ scope.depth ∧ ∃ owner ∈ frames, owner.depth ≤ access.depth := by
  induction scope generalizing frames with
  | top defs =>
    obtain ⟨-, globals, before, after, top⟩ := laid
    obtain ⟨declared, inside, rfl⟩ := List.mem_map.mp visible
    obtain ⟨flat, size, -, placed⟩ := Layout.globalLaid_of_mem_top top inside
    exact .inl ⟨_, placed⟩
  | enter function outer hypothesis =>
    obtain ⟨own, rest, rfl, -, deep, params, laidOuter⟩ := laid
    rcases List.mem_append.mp visible with isParam | isOuter
    · obtain ⟨param, inside, rfl⟩ := List.mem_map.mp isParam
      obtain ⟨index, found⟩ := List.mem_iff_getElem?.mp inside
      exact .inr ⟨_, params index param found, Nat.le_refl _, own, List.mem_cons_self,
        Nat.le_of_eq deep⟩
    · rcases hypothesis laidOuter isOuter with isGlobal | ⟨access, placed, shallow, owner, member, above⟩
      · exact .inl isGlobal
      · exact .inr ⟨access, placed, Nat.le_succ_of_le shallow, owner, List.mem_cons_of_mem _ member,
          above⟩
  | block defs outer hypothesis =>
    obtain ⟨nonempty, ⟨label, before, after, laidDefs⟩, laidOuter⟩ := laid
    rcases List.mem_append.mp visible with isLocal | isOuter
    · obtain ⟨declared, inside, rfl⟩ := List.mem_map.mp isLocal
      obtain ⟨first, last, flat, size, -, -, access, rfl, -, placed⟩ :=
        Layout.localLaid_of_mem laidDefs inside
      obtain ⟨owner, member⟩ := List.exists_mem_of_ne_nil frames nonempty
      exact .inr ⟨_, placed, Nat.le_refl _, owner, member,
        Nat.le_succ_of_le (laidOuter.depth_le member)⟩
    · rcases hypothesis laidOuter isOuter with isGlobal | ⟨access, placed, shallow, rest⟩
      · exact .inl isGlobal
      · exact .inr ⟨access, placed, Nat.le_succ_of_le shallow, rest⟩

/-- A visible function has a frame, and unless it is at the top level it is
defined in a function around. -/
theorem Laid.function {scope : Scope} {frames : List Frame} (laid : scope.Laid layout frames)
    {function : FunDef} (visible : function ∈ scope.functions) :
    ∃ frame, layout.frames[function.id]? = some frame ∧
      (frame.depth ≤ 1 ∨ frame.depth - 1 ≤ scope.depth ∧ ∃ owner ∈ frames, owner.depth ≤ frame.depth - 1) := by
  induction scope generalizing frames with
  | top defs =>
    obtain ⟨-, globals, before, after, top⟩ := laid
    obtain ⟨first, last, own⟩ := Layout.functionLaid_of_mem_functionsIn top visible
    obtain ⟨frame, framed, deep⟩ := own.frame
    exact ⟨frame, framed, .inl (Nat.le_of_eq deep)⟩
  | enter own outer hypothesis =>
    obtain ⟨frame, rest, rfl, -, -, -, laidOuter⟩ := laid
    obtain ⟨frame, framed, shallow | ⟨within, owner, member, above⟩⟩ := hypothesis laidOuter visible
    · exact ⟨frame, framed, .inl shallow⟩
    · exact ⟨frame, framed, .inr ⟨Nat.le_succ_of_le within, owner, List.mem_cons_of_mem _ member,
        above⟩⟩
  | block defs outer hypothesis =>
    obtain ⟨nonempty, ⟨label, before, after, laidDefs⟩, laidOuter⟩ := laid
    rcases List.mem_append.mp visible with isLocal | isOuter
    · obtain ⟨first, last, own⟩ := Layout.functionLaid_of_mem_block laidDefs isLocal
      obtain ⟨frame, framed, deep⟩ := own.frame
      obtain ⟨owner, member⟩ := List.exists_mem_of_ne_nil frames nonempty
      have above := laidOuter.depth_le member
      refine ⟨frame, framed, .inr ⟨?_, owner, member, ?_⟩⟩
      · rw [Scope.depth]
        omega
      · omega
    · obtain ⟨frame, framed, shallow | ⟨within, rest⟩⟩ := hypothesis laidOuter isOuter
      · exact ⟨frame, framed, .inl shallow⟩
      · exact ⟨frame, framed, .inr ⟨Nat.le_succ_of_le within, rest⟩⟩

end Scope

end ScopeStack
