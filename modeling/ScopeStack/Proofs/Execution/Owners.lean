import ScopeStack.Proofs.Compilation
import ScopeStack.Proofs.Execution.Uses

/-!
# The depth of a definition finds its owner

Compiled code gets to the frame of a function around by following access links, and the number of
links comes from depths alone: it is the number of frames that are deeper than the definition. The
blocks of a function make its variables deeper than its frame, but not as deep as the functions
inside the blocks, so that the count is the number of functions between the use and the function
that defines what is used.
-/

namespace ScopeStack

open Emission

namespace Scope

section Levelled

variable {layout : Layout} {scope home : Scope} {hops : Nat}

/-- Compiled code finds the frames of a scope in a function around. -/
theorem Levelled.hops_eq {program : Program} (levelled : scope.Levelled layout)
    (around : scope.Around home hops) (inFunction : home.enclosing ≠ []) :
    (scope.context program layout).hops home.depth = .ok hops := by
  have short : hops < (scope.frames layout).length := by
    rw [around.enclosing, ne_eq, List.drop_eq_nil_iff, Nat.not_le] at inFunction
    rwa [Scope.frames, List.length_map]
  have counted : (scope.frames layout).findIdx? (fun frame => frame.depth ≤ home.depth) =
      some hops := List.findIdx?_eq_some_iff_findIdx_eq.mpr
    ⟨short, @Levelled.distance _ _ _ _ program levelled around inFunction⟩
  rw [Context.hops, Scope.context, counted]

/-- A function around a point is found by the depth of its frame. -/
theorem Levelled.index (levelled : scope.Levelled layout) {owner : FunDef} {index : Nat}
    (found : scope.enclosing[index]? = some owner) :
    (scope.frames layout).findIdx (fun frame => frame.depth ≤ (layout.frameOf owner.id).depth) =
      index := by
  induction scope generalizing index with
  | top defs => simp [Scope.enclosing] at found
  | enter function outer hypothesis =>
    have frames : (Scope.enter function outer).frames layout =
        layout.frameOf function.id :: outer.frames layout := rfl
    rw [frames, List.findIdx_cons]
    cases index with
    | zero =>
      obtain rfl : function = owner := Option.some.inj found
      rw [decide_eq_true (Nat.le_refl _)]
      rfl
    | succ index =>
      have outward : outer.enclosing[index]? = some owner := found
      have member : layout.frameOf owner.id ∈ outer.frames layout :=
        List.mem_map_of_mem (List.mem_of_getElem? outward)
      have shallower := levelled.2.depth_le member
      have deeper : ¬(layout.frameOf function.id).depth ≤ (layout.frameOf owner.id).depth := by
        have deep := levelled.1
        omega
      rw [decide_eq_false deeper]
      exact congrArg (· + 1) (hypothesis levelled.2 outward)
  | block defs outer hypothesis => exact hypothesis levelled found

/-- A function stands around a point at one distance only. -/
theorem Levelled.index_unique (levelled : scope.Levelled layout) {owner : FunDef}
    {index other : Nat} (found : scope.enclosing[index]? = some owner)
    (otherFound : scope.enclosing[other]? = some owner) : index = other :=
  (levelled.index found).symm.trans (levelled.index otherFound)

end Levelled

section Housed

variable {program : Program} {layout : Layout} {scope home : Scope}

/-- A function that is defined in a scope is one at the top level, or is defined directly by the
innermost function. Its frame is one level deeper than the scope. -/
theorem Housed.ownFunction (housed : home.Housed program layout) {function : FunDef}
    (inside : function ∈ home.ownFunctions) :
    function ∈ functionsIn program.defs ∨
      ∃ owner frame, home.enclosing.head? = some owner ∧
        function ∈ localFunctionsOfStmts owner.body ∧
        layout.frames[function.id]? = some frame ∧ frame.depth = home.depth + 1 ∧
        0 < home.depth := by
  cases home with
  | top defs =>
    obtain rfl : defs = program.defs := housed
    exact .inl inside
  | enter _ _ => cases inside
  | block defs outer =>
    obtain ⟨⟨owner, label, before, after, innermost, laid, -, direct⟩, -⟩ := housed
    obtain ⟨first, last, own⟩ := Layout.functionLaid_of_mem_block laid inside
    obtain ⟨frame, framed, deep⟩ := own.frame
    exact .inr ⟨owner, frame, innermost, direct function inside, framed, deep, Nat.succ_pos _⟩

/-- What is defined directly by a function around a point and in a scope around the point is
defined by that function, and as many functions stand between as the scopes say. -/
theorem Housed.owner_eq (housed : scope.Housed program layout) (distinct : program.Distinct)
    {hops boundaries : Nat} {owner other : FunDef} {id : NodeId} (around : scope.Around home hops)
    (innermost : home.enclosing.head? = some other) (otherDefines : id ∈ other.defined)
    (enclosing : scope.enclosing[boundaries]? = some owner) (defines : id ∈ owner.defined) :
    hops = boundaries := by
  rw [around.enclosing, List.head?_drop] at innermost
  have otherInside := (housed.enclosing (List.mem_of_getElem? innermost)).1
  have inside := (housed.enclosing (List.mem_of_getElem? enclosing)).1
  obtain rfl := Program.definer_unique distinct otherInside inside otherDefines defines
  exact housed.levelled.index_unique innermost enclosing

end Housed

end Scope

/-- The depth of what an expression uses gives the number of functions between the expression and
the function that defines it directly, and the code of the expression follows that many access
links. -/
def FindsOwner (program : Program) (layout : Layout) (scope : Scope) : Expr → Prop
  | .var use _ => ∀ (target : NodeId) (owner : FunDef) (boundaries : Nat),
    program.definition? use = some target → scope.enclosing[boundaries]? = some owner →
    target ∈ owner.params.map Param.id ∨ target ∈ (localsOfStmts owner.body).map VarDef.id →
    ∃ access, layout.accesses[target]? = some (.rel access) ∧
      (scope.context program layout).hops access.depth = .ok boundaries ∧
      ∀ image, Image.ofProgram program layout = .ok image →
        image.Computes use
          (.regn .fp :: (List.replicate boundaries .load ++ [.push access.offset, .binary .add]))
  | .call id _ _ => ∀ (callee owner : FunDef) (boundaries : Nat),
    program.definition? id = some callee.id → scope.enclosing[boundaries]? = some owner →
    callee ∈ localFunctionsOfStmts owner.body →
    ∃ frame, layout.frames[callee.id]? = some frame ∧ 1 < frame.depth ∧
      (scope.context program layout).hops (frame.depth - 1) = .ok boundaries ∧
      ∀ image, Image.ofProgram program layout = .ok image →
        image.Calls id
          (.regn .fp :: (List.replicate boundaries .load ++
            [.name frame.name, .call (some frame.name)]))
  | _ => True

section Owners

variable {program : Program} {layout : Layout} {scope : Scope}

/-- A use of a variable that is defined directly in a function around finds the frame of that
function. -/
theorem findsOwner_var (distinct : program.Distinct) (housed : scope.Housed program layout)
    {use : NodeId} {name : String} (linked : (Rule.linked program).expr scope (.var use name))
    (recorded : ∀ image, Image.ofProgram program layout = .ok image →
      image.Computes use (variableInstrs (scope.context program layout) use)) :
    FindsOwner program layout scope (.var use name) := by
  intro target owner boundaries defined enclosing declares
  obtain ⟨same, visible, definedAgain⟩ := linked
  obtain rfl := Option.some.inj (definedAgain.symm.trans defined)
  have defines : same ∈ owner.defined := by
    rw [FunDef.defined, List.mem_append, List.mem_append]
    exact declares.imp_right .inl
  obtain ⟨home, hops, around, own⟩ := Scope.exists_around_of_variable visible
  rcases (housed.around around).ownVariable own with
    ⟨declared, member, rfl⟩ | ⟨other, access, innermost, owns, deep⟩
  · -- a variable at the top level is not defined in a function too
    have inside := (housed.enclosing (List.mem_of_getElem? enclosing)).1
    exact absurd (List.mem_append_left _ (List.mem_map_of_mem member))
      (Program.not_top_of_defined distinct inside defines)
  · have otherDefines : same ∈ other.defined := by
      rw [FunDef.defined, List.mem_append, List.mem_append]
      exact owns.2.imp_right .inl
    obtain rfl := housed.owner_eq distinct around innermost otherDefines enclosing defines
    have inFunction : home.enclosing ≠ [] := by
      intro empty
      rw [empty] at innermost
      cases innermost
    have found := @Scope.Levelled.hops_eq _ _ _ _ program housed.levelled around inFunction
    refine ⟨access, owns.1, deep ▸ found, fun image assembled => ?_⟩
    have computes := recorded image assembled
    rw [variableInstrs, accessOf?_of_found defined owns.1] at computes
    dsimp only at computes
    rwa [deep, Context.distance_eq_of_hops found] at computes

/-- A call of a function that is defined directly in a function around finds the frame of that
function. -/
theorem findsOwner_call (distinct : program.Distinct) (housed : scope.Housed program layout)
    {id : NodeId} {name : String} {args : List Expr}
    (linked : (Rule.linked program).expr scope (.call id name args))
    (recorded : ∀ image, Image.ofProgram program layout = .ok image →
      image.Calls id (calleeInstrs (scope.context program layout) id)) :
    FindsOwner program layout scope (.call id name args) := by
  intro callee owner boundaries defined enclosing direct
  obtain ⟨function, visible, definedAgain⟩ := linked
  have same : function.id = callee.id := Option.some.inj (definedAgain.symm.trans defined)
  have defines : callee.id ∈ owner.defined :=
    List.mem_append_right _ (List.mem_append_right _ (List.mem_map_of_mem direct))
  obtain ⟨home, hops, around, own⟩ := Scope.exists_around_of_function visible
  rcases (housed.around around).ownFunction own with
    member | ⟨other, frame, innermost, otherDirect, framed, deep, inside⟩
  · -- a function at the top level is not defined in a function too
    have inside := (housed.enclosing (List.mem_of_getElem? enclosing)).1
    have atTop : callee.id ∈ (functionsIn program.defs).map FunDef.id :=
      same ▸ List.mem_map_of_mem member
    exact absurd (List.mem_append_right _ atTop)
      (Program.not_top_of_defined distinct inside defines)
  · have otherDefines : callee.id ∈ other.defined :=
      same ▸ List.mem_append_right _ (List.mem_append_right _ (List.mem_map_of_mem otherDirect))
    obtain rfl := housed.owner_eq distinct around innermost otherDefines enclosing defines
    have inFunction : home.enclosing ≠ [] := by
      intro empty
      rw [empty] at innermost
      cases innermost
    have above : frame.depth - 1 = home.depth := by omega
    have found := @Scope.Levelled.hops_eq _ _ _ _ program housed.levelled around inFunction
    rw [same] at framed
    refine ⟨frame, framed, by omega, above ▸ found, fun image assembled => ?_⟩
    have calls := recorded image assembled
    rw [calleeInstrs, calleeOf?_of_found defined framed] at calls
    dsimp only at calls
    rwa [callInstrs, Context.linkDistance, if_neg (by omega), above,
      Context.distance_eq_of_hops found] at calls

/-- An expression finds the owner of what it uses. -/
theorem findsOwner_of_linked (distinct : program.Distinct) (housed : scope.Housed program layout)
    {expr : Expr} (linked : (Rule.linked program).expr scope expr)
    (recorded : ∀ image, Image.ofProgram program layout = .ok image →
      (Rule.recorded program layout image).expr scope expr) :
    FindsOwner program layout scope expr := by
  cases expr with
  | var use name => exact findsOwner_var distinct housed linked recorded
  | call id name args => exact findsOwner_call distinct housed linked recorded
  | _ => trivial

/-- In a program with lexical scoping the depth of a definition finds the function that defines
it, for every use of a parameter, a variable or a function from inside that function. -/
theorem depth_finds_owner (distinct : program.Distinct) (linked : program.Obeys (.linked program))
    (laid : Layout.ofProgram program = .ok layout) :
    program.Obeys (.onExprs (FindsOwner program layout)) := by
  obtain ⟨globals, ready, after, -, top⟩ := Layout.topLaid_of_ofProgram distinct laid
  have housed : program.Obeys (.housed program layout) := by
    refine defsObey_housed program.defs rfl (fun function inside => ?_) fun _ inside => inside
    obtain ⟨first, last, own⟩ := Layout.functionLaid_of_mem_functionsIn top inside
    exact ⟨none, first, last, own⟩
  have both := linked.and housed
  -- there is at most one image whose code is asked for
  cases assembled : Image.ofProgram program layout with
  | error cause =>
    refine both.mono ⟨fun scope expr known => ?_, ?_, ?_, ?_⟩
    · refine findsOwner_of_linked distinct known.2 known.1 fun image compiled => ?_
      cases assembled.symm.trans compiled
    all_goals exact fun _ _ _ => trivial
  | ok image =>
    have recorded : program.Obeys (.recorded program layout image) :=
      defsObey_recorded program.defs (functionsRecorded_of_ofProgram distinct assembled)
    refine (both.and recorded).mono ⟨fun scope expr known => ?_, ?_, ?_, ?_⟩
    · refine findsOwner_of_linked distinct known.1.2 known.1.1 fun other compiled => ?_
      cases assembled.symm.trans compiled
      exact known.2
    all_goals exact fun _ _ _ => trivial

end Owners

/-- A program with functions inside blocks of functions. The innermost one uses variables and
parameters of all of them, and calls one that the outermost defines. -/
def Program.towering : Program :=
  Builder.program do
    let main ← Builder.reserveFunction "main"
    let helper ← Builder.reserveFunction "helper"
    let middle ← Builder.reserveFunction "middle"
    let inner ← Builder.reserveFunction "inner"
    let far ← Builder.varDef "far" [← Builder.initItem 1 (← Builder.intAtom 1)]
    let near ← Builder.varDef "near" [← Builder.initItem 1 (← Builder.intAtom 2)]
    let own ← Builder.varDef "own" [← Builder.initItem 1 (← Builder.intAtom 3)]
    let value ← Builder.param "value"
    let step ← Builder.param "step"
    let helping ← Builder.function helper [value]
      [← Builder.exprStmt (← Builder.use value.id)]
    let sum ← Builder.binary .add (← Builder.use far.id) (← Builder.use near.id)
    let stepped ← Builder.binary .add sum (← Builder.use step.id)
    let kept ← Builder.assign (← Builder.use own.id) stepped
    let shown ← Builder.exprStmt (← Builder.call helper [← Builder.use own.id])
    let innermost ← Builder.function inner []
      [← Builder.block [own] [← Builder.block [] [kept, shown]]]
    let entered ← Builder.exprStmt (← Builder.call inner [])
    let between ← Builder.function middle [step]
      [← Builder.block [near] [← Builder.block [innermost] [entered]]]
    let started ← Builder.exprStmt (← Builder.call middle [← Builder.use far.id])
    let body ← Builder.block [far, helping, between] [started]
    return [← Builder.function main [] [body]]

/-- The depths in this program find the frames of the right functions. -/
theorem depth_finds_owner_towering :
    Program.towering.Distinct ∧ Program.towering.Obeys (.linked .towering) ∧
      ∃ layout image, Layout.ofProgram .towering = .ok layout ∧
        Image.ofProgram .towering layout = .ok image ∧
        Program.towering.Obeys (.onExprs (FindsOwner .towering layout)) := by
  have distinct : Program.towering.Distinct := by decide +kernel
  have linked : Program.towering.Obeys (.linked .towering) := by decide +kernel
  obtain ⟨image, executable, compiled, -⟩ :=
    Program.exists_executable (show (Program.towering.load .standard).toOption.isSome = true by
      decide +kernel)
  obtain ⟨layout, laid, assembled⟩ := Program.compile_eq_ok.mp compiled
  exact ⟨distinct, linked, layout, image, laid, assembled, depth_finds_owner distinct linked laid⟩

end ScopeStack
