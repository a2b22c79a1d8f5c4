import Mathlib.Data.Int.ConditionallyCompleteOrder
import Mathlib.Order.CompletePartialOrder
import Mathlib.Order.ConditionallyCompleteLattice.Basic
import Mathlib.Order.Interval.Set.Disjoint
import ScopeStack.Proofs.Layout.Slots

/-!
# A layout has exactly the entries that a program asks for

`Layout.Fits` says what the frame of a function is like: its parameters one word each from the
access link up, its variables one below another from the frame header down, and nothing between
them. `Layout.Exact` says this of all functions of a program, and that nothing but its functions,
variables and parameters has an entry.
-/

namespace ScopeStack

/-- The bytes of a place, as distances from the frame pointer. -/
def RelAccess.bytes (access : RelAccess) : Set Int :=
  Set.Ico access.offset (access.offset + access.size)

namespace TilesDown

variable {top bottom : Int} {places : List RelAccess}

/-- What lies between the two offsets is what the places take. -/
theorem sum_sizes (tiles : TilesDown top places bottom) :
    top - bottom = (places.map RelAccess.size).sum := by
  induction places generalizing top with
  | nil =>
    obtain rfl : bottom = top := tiles
    simp
  | cons access rest hypothesis =>
    obtain ⟨place, later⟩ := tiles
    have below := hypothesis later
    rw [List.map_cons, List.sum_cons]
    omega

/-- Places that are not negative lie between the two offsets. -/
theorem between (tiles : TilesDown top places bottom) (sized : ∀ access ∈ places, 0 ≤ access.size) :
    bottom ≤ top ∧
      ∀ access ∈ places, bottom ≤ access.offset ∧ access.offset + access.size ≤ top := by
  induction places generalizing top with
  | nil => exact ⟨Int.le_of_eq tiles, fun access member => nomatch member⟩
  | cons own rest hypothesis =>
    obtain ⟨place, later⟩ := tiles
    have ownSize := sized own List.mem_cons_self
    obtain ⟨lower, inside⟩ :=
      hypothesis later fun access member => sized access (List.mem_cons_of_mem _ member)
    refine ⟨by omega, fun access member => ?_⟩
    rcases List.mem_cons.mp member with rfl | inRest
    · exact ⟨lower, Int.le_of_eq place⟩
    · have bounds := inside access inRest
      omega

/-- Places below one another have no byte in common. -/
theorem pairwise_disjoint (tiles : TilesDown top places bottom)
    (sized : ∀ access ∈ places, 0 ≤ access.size) :
    places.Pairwise fun one other => Disjoint one.bytes other.bytes := by
  induction places generalizing top with
  | nil => exact .nil
  | cons own rest hypothesis =>
    obtain ⟨-, later⟩ := tiles
    have sizedRest : ∀ access ∈ rest, 0 ≤ access.size :=
      fun access member => sized access (List.mem_cons_of_mem _ member)
    refine .cons (fun access member => ?_) (hypothesis later sizedRest)
    have below := (later.between sizedRest).2 access member
    rw [RelAccess.bytes, RelAccess.bytes, Set.Ico_disjoint_Ico]
    omega

end TilesDown

namespace Layout

variable {layout : Layout}

/-- A variable has a place in a frame, with room for the words of its initializer. -/
def Houses (layout : Layout) (declared : VarDef) (access : RelAccess) : Prop :=
  layout.accesses[declared.id]? = some (.rel access) ∧
    ∃ contents, Initializer.contents? declared.items = some contents ∧
      access.size = 4 * contents.length

/-- Places that have been measured have room for the words of initializers whose lengths are
words. -/
theorem houses_of_places {declared : List VarDef} {places : List RelAccess}
    (fit : ∀ own ∈ declared, own.LengthsFit)
    (placed : List.Forall₂ layout.Places declared places) :
    List.Forall₂ layout.Houses declared places := by
  induction placed with
  | nil => exact .nil
  | cons own _ hypothesis =>
    obtain ⟨ownFit, restFit⟩ := List.forall_mem_cons.mp fit
    obtain ⟨found, flat, measured, -⟩ := own
    exact .cons ⟨found, exists_contents_of_measure ownFit measured⟩ (hypothesis restFit)

/-- The place of a variable is not negative. -/
theorem size_nonneg_of_houses {declared : List VarDef} {places : List RelAccess}
    (housed : List.Forall₂ layout.Houses declared places) :
    ∀ access ∈ places, 0 ≤ access.size := by
  induction housed with
  | nil =>
    intro access member
    cases member
  | cons placed _ hypothesis =>
    obtain ⟨-, contents, -, size⟩ := placed
    intro access member
    rcases List.mem_cons.mp member with rfl | inRest
    · omega
    · exact hypothesis access inRest

/-- What the frame of a function is like. The parameters and the variables are listed as the
function defines them, and each has the place that the frame lists. -/
structure Fits (layout : Layout) (function : FunDef) (frame : Frame) : Prop where
  pars : List.Forall₂ (fun param access => layout.accesses[param.id]? = some (.rel access))
    function.params frame.pars
  /-- Parameter number `i`, from one on, is the word at `4 * i`. -/
  words : ∀ (index : Nat) (access : RelAccess), frame.pars[index]? = some access →
    access.offset = 4 * (index + 1) ∧ access.size = 4
  vars : List.Forall₂ layout.Places (localsOfStmts function.body) frame.vars
  /-- The variables lie one below another, from the header to the end of the frame. -/
  tiles : TilesDown (-Frame.headerSize) frame.vars (-frame.varsSize)
  parsSize : frame.parsSize = 4 * function.params.length + 4
  varsSize : frame.varsSize = Frame.headerSize + (frame.vars.map RelAccess.size).sum
  whole : 4 ∣ frame.parsSize ∧ 4 ∣ frame.varsSize
  /-- Each variable has room for the words of its initializer, as long as no length in it exceeds a
  word. -/
  houses : function.LengthsFit → List.Forall₂ layout.Houses (localsOfStmts function.body) frame.vars
  least : 4 ≤ frame.parsSize ∧ (function.LengthsFit → 8 ≤ frame.varsSize)
  /-- Parameters, the access link, the header and the variables have no byte in common. -/
  apart : function.LengthsFit →
    (frame.pars.map RelAccess.bytes ++ Set.Ico 0 4 :: Set.Ico (-Frame.headerSize) 0 ::
      frame.vars.map RelAccess.bytes).Pairwise Disjoint

/-- The place of a parameter among those of all. -/
theorem getElem?_paramAccesses (depth start index : Nat) (params : List Param) :
    (paramAccesses depth start params)[index]? =
      params[index]?.map (paramAccess depth (start + index)) := by
  induction params generalizing start index with
  | nil => simp [paramAccesses]
  | cons param rest hypothesis =>
    cases index with
    | zero => simp [paramAccesses, paramAccess]
    | succ index =>
      rw [paramAccesses, List.getElem?_cons_succ, List.getElem?_cons_succ, hypothesis,
        Nat.add_assoc start 1 index, Nat.add_comm 1 index]

/-- Each parameter has the place that is listed for it. -/
theorem ParamsLaid.forall₂ {depth : Nat} {params : List Param}
    (laid : ParamsLaid layout depth params) :
    List.Forall₂ (fun param access => layout.accesses[param.id]? = some (.rel access)) params
      (paramAccesses depth 0 params) := by
  refine List.forall₂_iff_get.mpr ⟨(length_paramAccesses depth 0 params).symm, ?_⟩
  intro index inside listed
  have found := getElem?_paramAccesses depth 0 index params
  rw [List.getElem?_eq_getElem listed, List.getElem?_eq_getElem inside, Nat.zero_add] at found
  rw [List.get_eq_getElem, List.get_eq_getElem, Option.some.inj found]
  exact laid index _ (List.getElem?_eq_getElem inside)

/-- Parameter number `i`, from one on, is the word at `4 * i`. -/
theorem word_of_paramAccesses {depth : Nat} {params : List Param} {index : Nat}
    {access : RelAccess} (listed : (paramAccesses depth 0 params)[index]? = some access) :
    access.offset = 4 * (index + 1) ∧ access.size = 4 := by
  rw [getElem?_paramAccesses, Nat.zero_add] at listed
  obtain ⟨param, -, rfl⟩ := Option.map_eq_some_iff.mp listed
  exact ⟨rfl, rfl⟩

/-- Words one above another from the access link up, the link, the header, and places one below
another from the header down have no byte in common. -/
theorem pairwise_disjoint_of_tiles {pars vars : List RelAccess} {bottom : Int}
    (words : ∀ (index : Nat) (access : RelAccess), pars[index]? = some access →
      access.offset = 4 * (index + 1) ∧ access.size = 4)
    (tiles : TilesDown (-Frame.headerSize) vars bottom) (sized : ∀ access ∈ vars, 0 ≤ access.size) :
    (pars.map RelAccess.bytes ++ Set.Ico 0 4 :: Set.Ico (-Frame.headerSize) 0 ::
      vars.map RelAccess.bytes).Pairwise Disjoint := by
  have above : ∀ access ∈ pars, 4 ≤ access.offset ∧ access.size = 4 := by
    intro access member
    obtain ⟨index, listed⟩ := List.mem_iff_getElem?.mp member
    have word := words index access listed
    omega
  have below := (tiles.between sized).2
  rw [Frame.headerSize] at below ⊢
  rw [List.pairwise_append, List.pairwise_cons, List.pairwise_cons, List.pairwise_map,
    List.pairwise_map]
  refine ⟨?_, ⟨?_, ?_, tiles.pairwise_disjoint sized⟩, ?_⟩
  · rw [List.pairwise_iff_getElem]
    intro index other inside otherInside less
    have word := words index _ (List.getElem?_eq_getElem inside)
    have otherWord := words other _ (List.getElem?_eq_getElem otherInside)
    rw [RelAccess.bytes, RelAccess.bytes, Set.Ico_disjoint_Ico]
    omega
  · intro bytes member
    rcases List.mem_cons.mp member with rfl | inVars
    · rw [Set.Ico_disjoint_Ico]
      omega
    · obtain ⟨access, inside, rfl⟩ := List.mem_map.mp inVars
      have bounds := below access inside
      rw [RelAccess.bytes, Set.Ico_disjoint_Ico]
      omega
  · intro bytes member
    obtain ⟨access, inside, rfl⟩ := List.mem_map.mp member
    have bounds := below access inside
    rw [RelAccess.bytes, Set.Ico_disjoint_Ico]
    omega
  · intro bytes member other otherMember
    obtain ⟨access, inside, rfl⟩ := List.mem_map.mp member
    have bounds := above access inside
    rcases List.mem_cons.mp otherMember with rfl | later
    · rw [RelAccess.bytes, Set.Ico_disjoint_Ico]
      omega
    · rcases List.mem_cons.mp later with rfl | inVars
      · rw [RelAccess.bytes, Set.Ico_disjoint_Ico]
        omega
      · obtain ⟨lower, member, rfl⟩ := List.mem_map.mp inVars
        have lowerBounds := below lower member
        rw [RelAccess.bytes, RelAccess.bytes, Set.Ico_disjoint_Ico]
        omega

/-- A function that has been laid out has a frame that fits it. -/
theorem FunctionLaid.fits {outer : Option String} {depth : Nat} {function : FunDef}
    {before after : LabelSet} (laid : FunctionLaid layout outer depth function before after) :
    ∃ frame, layout.frames[function.id]? = some frame ∧ layout.Fits function frame := by
  obtain ⟨words, room⟩ := laid.words
  obtain ⟨id, name, params, body⟩ := function
  obtain ⟨laidParams, label, labels, locals, -, laidBody, framed⟩ := laid
  rw [frameOf_eq framed, Frame.localsSize, Frame.headerSize] at room
  obtain ⟨added, grown, placed, tiles⟩ := StmtsLaid.adds body laidBody
  obtain rfl : locals.vars = added := grown
  rw [show Locals.empty.bottom = -Frame.headerSize from rfl, ← Int.neg_neg locals.bottom] at tiles
  have total := tiles.sum_sizes
  have listed (index : Nat) (access : RelAccess)
      (found : (paramAccesses (depth + 1) 0 params)[index]? = some access) :=
    word_of_paramAccesses found
  have nonneg (fit : FunDef.LengthsFit ⟨id, name, params, body⟩) :=
    size_nonneg_of_houses (houses_of_places fit placed)
  refine ⟨_, framed, ?_⟩
  dsimp only at room
  exact
    { pars := laidParams.forall₂
      words := listed
      vars := placed
      tiles := tiles
      parsSize := rfl
      varsSize := by dsimp only; omega
      whole := by dsimp only; omega
      houses := fun fit => houses_of_places fit placed
      least := ⟨by dsimp only; omega, fun fit => by
        have below := (tiles.between (nonneg fit)).1
        rw [Frame.headerSize] at below
        dsimp only
        omega⟩
      apart := fun fit => pairwise_disjoint_of_tiles listed tiles (nonneg fit) }

mutual

/-- All variables and parameters inside a statement have places in a frame. -/
theorem StmtLaid.stored {label : String} {depth : Nat} {before after : Extent} {id : NodeId} :
    (stmt : Stmt) → StmtLaid layout label depth stmt before after → id ∈ stmt.storage →
    ∃ access, layout.accesses[id]? = some (.rel access)
  | .expr _ _, _, member => nomatch member
  | .assign _ _ _, _, member => nomatch member
  | .cond _ _ yes no, ⟨_, laidYes, laidNo⟩, member => by
    rcases List.mem_append.mp member with inYes | inNo
    · exact StmtsLaid.stored yes laidYes inYes
    · exact StmtsLaid.stored no laidNo inNo
  | .loop _ _ body, laid, member => StmtsLaid.stored body laid member
  | .block _ defs body, ⟨_, laidDefs, laidBody⟩, member => by
    rcases List.mem_append.mp member with inDefs | inBody
    · exact DefsLaid.stored defs laidDefs inDefs
    · exact StmtsLaid.stored body laidBody inBody

/-- All variables and parameters inside statements have places in a frame. -/
theorem StmtsLaid.stored {label : String} {depth : Nat} {before after : Extent} {id : NodeId} :
    (stmts : List Stmt) → StmtsLaid layout label depth stmts before after →
    id ∈ storageOfStmts stmts → ∃ access, layout.accesses[id]? = some (.rel access)
  | [], _, member => nomatch member
  | stmt :: rest, ⟨_, laidStmt, laidRest⟩, member => by
    rcases List.mem_append.mp member with inStmt | inRest
    · exact StmtLaid.stored stmt laidStmt inStmt
    · exact StmtsLaid.stored rest laidRest inRest

/-- All variables and parameters among definitions of a block and inside them have places in a
frame. -/
theorem DefsLaid.stored {label : String} {depth : Nat} {before after : Extent} {id : NodeId} :
    (defs : List Def) → DefsLaid layout label depth defs before after →
    id ∈ storageOfDefs defs → ∃ access, layout.accesses[id]? = some (.rel access)
  | [], _, member => nomatch member
  | .fn function :: rest, ⟨_, laidFunction, laidRest⟩, member => by
    rcases List.mem_append.mp member with inFunction | inRest
    · exact FunctionLaid.stored function laidFunction inFunction
    · exact DefsLaid.stored rest laidRest inRest
  | .var declared :: rest, ⟨_, ⟨_, _, _, _, access, _, _, found⟩, laidRest⟩, member => by
    rcases List.mem_cons.mp member with rfl | inRest
    · exact ⟨access, found⟩
    · exact DefsLaid.stored rest laidRest inRest

/-- The parameters of a function and all variables and parameters inside it have places in a
frame. -/
theorem FunctionLaid.stored {outer : Option String} {depth : Nat} {before after : LabelSet}
    {id : NodeId} : (function : FunDef) →
    FunctionLaid layout outer depth function before after → id ∈ function.storage →
    ∃ access, layout.accesses[id]? = some (.rel access)
  | ⟨_, _, params, body⟩, ⟨laidParams, _, _, _, _, laidBody, _⟩, member => by
    rcases List.mem_append.mp member with inParams | inBody
    · obtain ⟨param, inside, rfl⟩ := List.mem_map.mp inParams
      obtain ⟨index, found⟩ := List.mem_iff_getElem?.mp inside
      exact ⟨_, laidParams index param found⟩
    · exact StmtsLaid.stored body laidBody inBody

end

/-- What a program defines outside its global variables has a place in a frame. -/
theorem TopLaid.stored {globals : Table String} {defs : List Def} {before after : LabelSet}
    {id : NodeId} (laid : TopLaid layout globals defs before after)
    (member : id ∈ storageOfDefs defs) (notGlobal : id ∉ (variablesIn defs).map VarDef.id) :
    ∃ access, layout.accesses[id]? = some (.rel access) := by
  induction defs generalizing before with
  | nil => cases member
  | cons definition rest hypothesis =>
    cases definition with
    | fn function =>
      obtain ⟨labels, laidFunction, laidRest⟩ := laid
      rcases List.mem_append.mp member with inFunction | inRest
      · exact FunctionLaid.stored function laidFunction inFunction
      · exact hypothesis laidRest inRest notGlobal
    | var declared =>
      have others : id ≠ declared.id ∧ id ∉ (variablesIn rest).map VarDef.id := by
        constructor
        · rintro rfl
          exact notGlobal List.mem_cons_self
        · exact fun inside => notGlobal (List.mem_cons_of_mem _ inside)
      rcases List.mem_cons.mp member with same | inRest
      · exact absurd same others.1
      · exact hypothesis laid.2 inRest others.2

/-- A layout has entries for exactly the functions, variables and parameters of a program: the
variables at the top level lie outside all frames, and everything else has the place in the frame
of its function that the frame lists. -/
structure Exact (program : Program) (layout : Layout) : Prop where
  accesses : ∀ id, id ∈ layout.accesses ↔ id ∈ storageOfDefs program.defs
  frames : ∀ id, id ∈ layout.frames ↔ id ∈ program.functions.map FunDef.id
  absolute : ∀ id ∈ (variablesIn program.defs).map VarDef.id,
    ∃ access, layout.accesses[id]? = some (.abs access)
  relative : ∀ id ∈ storageOfDefs program.defs, id ∉ (variablesIn program.defs).map VarDef.id →
    ∃ access, layout.accesses[id]? = some (.rel access)
  fits : ∀ function ∈ program.functions,
    ∃ frame, layout.frames[function.id]? = some frame ∧ layout.Fits function frame

/-- The variables among definitions are among all that they store. -/
theorem storage_of_variablesIn {defs : List Def} {id : NodeId}
    (member : id ∈ (variablesIn defs).map VarDef.id) : id ∈ storageOfDefs defs := by
  induction defs with
  | nil => exact member
  | cons definition rest hypothesis =>
    cases definition with
    | fn function => exact List.mem_append_right _ (hypothesis member)
    | var declared =>
      rcases List.mem_cons.mp member with rfl | inRest
      · exact List.mem_cons_self
      · exact List.mem_cons_of_mem _ (hypothesis inRest)

end Layout

/-- The layout of a program with distinct numbers is exact. What it says of the bytes of variables
is said of functions whose variables have no text with a length beyond a word. -/
theorem layout_exact {program : Program} {layout : Layout} (distinct : program.Distinct)
    (laid : Layout.ofProgram program = .ok layout) : layout.Exact program := by
  obtain ⟨globals, ready, after, -, top⟩ := Layout.topLaid_of_ofProgram distinct laid
  have grown := Layout.grown_of_ofProgram laid
  have absolute : ∀ id ∈ (variablesIn program.defs).map VarDef.id,
      ∃ access, layout.accesses[id]? = some (.abs access) := by
    intro id member
    obtain ⟨declared, inside, rfl⟩ := List.mem_map.mp member
    obtain ⟨flat, size, -, found⟩ := Layout.globalLaid_of_mem_top top inside
    exact ⟨_, found⟩
  have fits : ∀ function ∈ program.functions,
      ∃ frame, layout.frames[function.id]? = some frame ∧ layout.Fits function frame := by
    intro function member
    obtain ⟨outer, level, first, last, own⟩ := top.inside member
    exact own.fits
  refine ⟨fun id => ?_, fun id => ?_, absolute, fun id => top.stored, fits⟩
  · rw [Std.TreeMap.mem_iff_isSome_getElem?, Option.isSome_iff_exists]
    constructor
    · rintro ⟨access | access, found⟩
      · rcases grown.absolute id access found with absent | inside
        · simp [Layout.empty] at absent
        · exact Layout.storage_of_variablesIn inside
      · rcases grown.relative id access found with absent | inside
        · simp [Layout.empty] at absent
        · exact inside
    · intro member
      by_cases isGlobal : id ∈ (variablesIn program.defs).map VarDef.id
      · obtain ⟨access, found⟩ := absolute id isGlobal
        exact ⟨_, found⟩
      · obtain ⟨access, found⟩ := top.stored member isGlobal
        exact ⟨_, found⟩
  · rw [Std.TreeMap.mem_iff_isSome_getElem?, Option.isSome_iff_exists]
    constructor
    · rintro ⟨frame, found⟩
      exact (Layout.entries_of_ofProgram laid).1 id frame found
    · intro member
      obtain ⟨function, inside, rfl⟩ := List.mem_map.mp member
      obtain ⟨frame, found, -⟩ := fits function inside
      exact ⟨frame, found⟩

/-- A program with variables at the top level, in a block, in a block inside a loop and in a
function inside a block, and with a function that has no body. -/
def Program.layered : Program :=
  Builder.program do
    let limit ← Builder.varDef "limit" [← Builder.initItem 1 (← Builder.intAtom 3)]
    let putint ← Builder.reserveFunction "putint"
    let service ← Builder.function putint [← Builder.param "value"] []
    let main ← Builder.reserveFunction "main"
    let inner ← Builder.reserveFunction "inner"
    let pair ← Builder.varDef "pair" [← Builder.initItem 2 (← Builder.intAtom 1)]
    let last ← Builder.varDef "last" []
    let kept ← Builder.varDef "kept" [← Builder.initItem 3 (← Builder.intAtom 0)]
    let sum ← Builder.param "sum"
    let step ← Builder.param "step"
    let added ← Builder.assign (← Builder.use kept.id) (← Builder.use step.id)
    let nested ← Builder.function inner [sum, step] [← Builder.block [kept] [added]]
    let lowered ← Builder.assign (← Builder.use limit.id) (← Builder.use last.id)
    let repeated ← Builder.loop (← Builder.use limit.id) [← Builder.block [last] [lowered]]
    let body ← Builder.block [pair, nested] [repeated]
    return [limit, service, ← Builder.function main [] [body]]

/-- The program in layers has an exact layout, and no length in it exceeds a word. -/
theorem layout_exact_layered :
    Program.layered.Distinct ∧ (∀ function ∈ Program.layered.functions, function.LengthsFit) ∧
      ∃ layout, Layout.ofProgram .layered = .ok layout ∧ layout.Exact .layered := by
  have distinct : Program.layered.Distinct := by decide +kernel
  have fit : ∀ function ∈ Program.layered.functions, function.LengthsFit := by decide +kernel
  have succeeds : (Layout.ofProgram .layered).toOption.isSome = true := by decide +kernel
  cases laid : Layout.ofProgram .layered with
  | error cause =>
    rw [laid] at succeeds
    cases succeeds
  | ok layout => exact ⟨distinct, fit, layout, rfl, layout_exact distinct laid⟩

end ScopeStack
