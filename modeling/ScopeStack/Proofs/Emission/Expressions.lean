import ScopeStack.Proofs.Emission.Emitted

/-!
# The output of expressions

The primitive steps of emission have simple outputs. From these, by recursion
on the tree, an expression emits the closed form of its code,
`emitted_emitValue`, and so do a use of a variable and a place.
-/

namespace ScopeStack.Emission

open Stateful

namespace Output

/-- What two outputs touch. -/
@[simp] theorem touched_append (first second : Output) :
    (first ++ second).touched = first.touched ++ second.touched := rfl

/-- The data of two outputs. -/
@[simp] theorem data_append (first second : Output) :
    (first ++ second).data = first.data ++ second.data := rfl

/-- The branching statements of two outputs. -/
@[simp] theorem branches_append (first second : Output) :
    (first ++ second).branches = first.branches ++ second.branches := rfl

/-- The code blocks of two outputs. -/
@[simp] theorem blocks_append (first second : Output) (naming : Naming) :
    (first ++ second).blocks naming = first.blocks naming ++ second.blocks naming := rfl

/-- The instructions of two outputs. -/
@[simp] theorem instrs_append (first second : Output) (naming : Naming) :
    (first ++ second).instrs naming = first.instrs naming ++ second.instrs naming := rfl

/-- The output of an expression. -/
def ofValue (context : Context) (expr : Expr) : Output :=
  ⟨expr.ids, valueData expr, [], fun _ => [], fun naming => valueInstrs context naming expr⟩

/-- The output of the arguments of a call. -/
def ofArgs (context : Context) (args : List Expr) : Output :=
  ⟨idsOfExprs args, argData args, [], fun _ => [], fun naming => argInstrs context naming args⟩

/-- The output of a use of a variable as a place. -/
def ofVariable (context : Context) (id : NodeId) : Output :=
  ⟨[id], [], [], fun _ => [], fun _ => variableInstrs context id⟩

/-- The output of a place. -/
def ofPlace (context : Context) (expr : Expr) : Output :=
  ⟨expr.ids, placeData expr, [], fun _ => [], fun naming => placeInstrs context naming expr⟩

end Output

open Emission.Output

/-- Entering code touches its number alone. -/
theorem emitted_record {id : NodeId} {code : Code} {before after : Progress}
    (ran : (record id code).run before = .ok ((), after)) :
    Emitted (.ofEntry id) before after [] ∧ after.code[id]? = some code := by
  simp only [record, run_modify_eq_ok, Prod.mk.injEq, true_and] at ran
  subst ran
  refine ⟨⟨?_, ?_, rfl, rfl, fun _ _ => rfl, ?_⟩, ?_⟩
  · intro other outside
    have different : id ≠ other := fun same => outside (by simp [Output.ofEntry, same])
    simp [Std.TreeMap.getElem?_insert, different]
  · simp [Output.ofEntry]
  · intro _ _ _ _ _
    exact ⟨List.forall_mem_nil _, List.forall_mem_nil _⟩
  · simp

/-- Code that is entered is passed on as it is. -/
theorem fst_of_recorded {id : NodeId} {code : Code} {before : Progress} {result : Code × Progress}
    (ran : (recorded id code).run before = .ok result) : result.1 = code := by
  simp only [recorded, run_bind_eq_ok, run_pure_eq_ok] at ran
  obtain ⟨⟨⟩, after, -, rfl⟩ := ran
  rfl

/-- Code that has been put together is entered and passed on. -/
theorem Emitted.recorded {output : Output} {id : NodeId} {code : Code}
    {before middle : Progress} {result : Code × Progress}
    (emitted : Emitted output before middle code)
    (ran : (recorded id code).run middle = .ok result) :
    Emitted (output ++ .ofEntry id) before result.2 result.1 := by
  simp only [Emission.recorded, run_bind_eq_ok, run_pure_eq_ok] at ran
  obtain ⟨⟨⟩, after, entered, rfl⟩ := ran
  have both := emitted.trans (emitted_record entered).1
  rwa [List.append_nil] at both

/-- Code may be entered again for a number that the same piece has touched, as
long as that has entered no function. -/
theorem Emitted.recordedAgain {output : Output} {id : NodeId} {code : Code}
    {before middle : Progress} {result : Code × Progress}
    (emitted : Emitted output before middle code) (known : id ∈ output.touched)
    (noBlocks : ∀ naming, output.blocks naming = [])
    (ran : (Emission.recorded id code).run middle = .ok result) :
    Emitted output before result.2 result.1 := by
  simp only [Emission.recorded, record, run_bind_eq_ok, run_pure_eq_ok, run_modify_eq_ok,
    Prod.mk.injEq, true_and] at ran
  obtain ⟨⟨⟩, after, rfl, rfl⟩ := ran
  refine ⟨?_, emitted.order, emitted.constants, emitted.branches, emitted.shape, ?_⟩
  · intro other outside
    have different : id ≠ other := fun same => outside (same ▸ known)
    rw [← (emitted.untouched other outside).1, ← (emitted.untouched other outside).2]
    simp [Std.TreeMap.getElem?_insert, different]
  · intro naming final distinct agree continues
    have entered := emitted.entries naming { final with code := middle.code } distinct
      (fun other inside => ⟨rfl, (agree other inside).2⟩) continues
    refine ⟨entered.1, ?_⟩
    rw [noBlocks naming]
    exact List.forall_mem_nil _

/-- Taking a branch number gives the next one. -/
theorem emitted_freshBranch (id : NodeId) {before : Progress} {result : Nat × Progress}
    (ran : freshBranch.run before = .ok result) :
    result.1 = before.nextBranch ∧ Emitted (.ofBranch id) before result.2 [] := by
  simp only [freshBranch, run_modifyGet_eq_ok] at ran
  subst ran
  refine ⟨rfl, fun _ _ => ⟨rfl, rfl⟩, ?_, rfl, rfl, fun _ _ => rfl, ?_⟩
  · simp [Output.ofBranch]
  · intro _ _ _ _ _
    exact ⟨List.forall_mem_nil _, List.forall_mem_nil _⟩

/-- Adding the data of a node under the next constant label. -/
theorem emitted_addData (own : DataBlock) {data : Data} {label : String}
    {before middle after : Progress}
    (taken : freshConstant.run before = .ok (label, middle))
    (added : (addData own.id data).run middle = .ok ((), after))
    (items : ∀ naming : Naming, naming.constantLabel own.id = label →
      data.map Located.item = own.items naming) :
    Emitted (.ofData own) before after [] ∧
      ∀ naming : Naming, naming.constant own.id = before.nextConstant →
        naming.constantLabel own.id = label := by
  simp only [freshConstant, run_modifyGet_eq_ok, Prod.mk.injEq] at taken
  obtain ⟨rfl, rfl⟩ := taken
  simp only [addData, run_modify_eq_ok, Prod.mk.injEq, true_and] at added
  subst added
  have named : ∀ naming : Naming, naming.constant own.id = before.nextConstant →
      naming.constantLabel own.id = ":" ++ toString before.nextConstant := by
    intro naming same
    rw [Naming.constantLabel, same]
  refine ⟨⟨?_, rfl, rfl, rfl, fun _ _ => rfl, ?_⟩, named⟩
  · intro other outside
    have different : own.id ≠ other := fun same => outside (by simp [Output.ofData, same])
    simp [Std.TreeMap.getElem?_insert, different]
  · intro naming final _ agree continues
    refine ⟨?_, List.forall_mem_nil _⟩
    intro other inside
    obtain rfl := List.mem_singleton.mp inside
    have atEnd := (agree other.id (by simp [Output.ofData])).2
    rw [HasData, atEnd]
    simp only [Std.TreeMap.getElem?_insert_self, Option.getD_some]
    exact items naming (named naming (numbered_singleton.mp continues.1))

/-- Giving data a place in the source does not change them. -/
@[simp] theorem map_item_dataAt (span : Option Span) (items : List Datum) :
    (dataAt span items).map Located.item = items := by
  simp [dataAt, Function.comp_def]

/-- The output of a constant. -/
def Output.ofAtom (id : NodeId) (atom : Atom) : Output :=
  ⟨if atom.kind = .str then [id] else [], valueData (.atom id atom), [], fun _ => [],
    fun naming => atomInstrs naming id atom⟩

/-- A number emits an instruction that pushes it. -/
theorem emitted_number {span : Option Span} {id : NodeId} {atom : Atom} {before : Progress}
    {result : Code × Progress} {read : Except LiteralError Int}
    (same : read.toOption.getD 0 = atom.number) (number : atom.kind ≠ .str)
    (ran : (do
      let value ← (read.mapError EmissionError.literal : Except EmissionError Int)
      return codeAt span [.push value] : Emit Code).run before = .ok result) :
    Emitted (.ofAtom id atom) before result.2 result.1 := by
  simp only [run_bind_eq_ok, run_lift_eq_ok, run_pure_eq_ok, mapError_eq_ok_iff] at ran
  obtain ⟨value, middle, ⟨_, decoded, unchanged⟩, rfl⟩ := ran
  cases unchanged
  subst decoded
  have value_eq : value = atom.number := same
  have pushed := (Emitted.nothing before).append span [.push value]
  refine pushed.recast (by simp [Output.ofInstrs]) ?_ rfl (by simp [Output.ofAtom]) ?_
  · simp [Output.ofAtom, valueData, number, Output.ofInstrs]
  · intro naming _
    simp only [Output.ofAtom, atomInstrs, instrs_append, Output.ofInstrs]
    rw [value_eq]
    rfl

/-- A constant emits its code and, if it is a text, its data. -/
theorem emitted_emitAtom {context : Context} {id : NodeId} {atom : Atom} {before : Progress}
    {result : Code × Progress} (ran : (emitAtom context id atom).run before = .ok result) :
    Emitted (.ofAtom id atom) before result.2 result.1 := by
  rw [emitAtom] at ran
  split at ran
  next int => exact emitted_number (by rw [Atom.number, int]) (by simp [int]) ran
  next char => exact emitted_number (by rw [Atom.number, char]) (by simp [char]) ran
  next text =>
    simp only [run_bind_eq_ok, run_lift_eq_ok, run_pure_eq_ok, mapError_eq_ok_iff] at ran
    obtain ⟨words, start, ⟨_, decoded, unchanged⟩, label, middle, taken, ⟨⟩, after, added, rfl⟩ := ran
    cases unchanged
    have spelled : atom.codes = words := by
      rw [Atom.codes, decoded]
      rfl
    obtain ⟨emitted, label_eq⟩ :=
      emitted_addData ⟨id, none, atom.codes ++ [0]⟩ taken added (by
        intro naming named
        simp only [map_item_dataAt, DataBlock.items, List.nil_append]
        rw [named, spelled])
    refine (emitted.append (context.span? id) [.name label]).recast ?_ ?_ rfl ?_ ?_
    · simp [Output.ofAtom, text, Output.ofData, Output.ofInstrs]
    · simp [Output.ofAtom, valueData, text, Output.ofData, Output.ofInstrs]
    · simp [Output.ofAtom]
    · intro naming continues
      have named := label_eq naming (numbered_singleton.mp continues.1)
      simp only [Output.ofAtom, atomInstrs, text, instrs_append, Output.ofData, Output.ofInstrs]
      rw [named]
      rfl

namespace Context

/-- A use has a definition if the program links it to one. -/
theorem definition_eq_ok {context : Context} {id target : NodeId} :
    context.definition id = .ok target ↔ context.program.definition? id = some target := by
  rw [definition]
  split <;> simp_all

/-- A variable can be accessed if it has an entry in the layout. -/
theorem access_eq_ok {context : Context} {id : NodeId} {access : Access} :
    context.access id = .ok access ↔ context.layout.accesses[id]? = some access := by
  rw [Context.access]
  split <;> simp_all

/-- A function can be called if it has a frame in the layout. -/
theorem frame_eq_ok {context : Context} {id : NodeId} {frame : Frame} :
    context.frame id = .ok frame ↔ context.layout.frames[id]? = some frame := by
  rw [Context.frame]
  split <;> simp_all

/-- The hops to a frame are the number of deeper frames before it. -/
theorem distance_eq_of_hops {context : Context} {depth hops : Nat}
    (found : context.hops depth = .ok hops) : context.distance depth = hops := by
  rw [Context.hops] at found
  split at found
  next index search =>
    cases found
    rw [distance]
    exact (List.findIdx?_eq_some_iff_findIdx_eq.mp search).2
  next => cases found

end Context

/-- A use of a variable finds the place of the variable and enters the code for its address. -/
theorem emitVariable_eq_ok {context : Context} {id : NodeId} {before : Progress}
    {result : Code × Progress} (ran : (emitVariable context id).run before = .ok result) :
    ∃ access, context.accessOf? id = some access ∧
      (recorded id (codeAt (context.span? id) (variableInstrs context id))).run before =
        .ok result := by
  rw [emitVariable] at ran
  split at ran
  · obtain ⟨_, _, thrown, -⟩ := run_bind_eq_ok.mp ran
    exact (run_throw_eq_ok.mp thrown).elim
  simp only [run_bind_eq_ok, run_lift_eq_ok, Context.definition_eq_ok, Context.access_eq_ok] at ran
  obtain ⟨target, _, ⟨_, defined, unchanged⟩, access, _, ⟨_, placed, unchangedAgain⟩, finished⟩ := ran
  cases unchanged
  cases unchangedAgain
  have found : context.accessOf? id = some access := by
    rw [Context.accessOf?, defined, Option.bind_some, placed]
  refine ⟨access, found, ?_⟩
  rw [variableInstrs, found]
  cases access with
  | abs access => exact finished
  | rel access =>
    simp only [run_bind_eq_ok, run_lift_eq_ok] at finished
    obtain ⟨hops, _, ⟨_, counted, unchanged⟩, finished⟩ := finished
    cases unchanged
    simp only [Context.distance_eq_of_hops counted]
    exact finished

/-- A use of a variable as a place emits code for its address. -/
theorem emitted_emitVariable {context : Context} {id : NodeId} {before : Progress}
    {result : Code × Progress} (ran : (emitVariable context id).run before = .ok result) :
    Emitted (.ofVariable context id) before result.2 result.1 := by
  obtain ⟨access, -, entered⟩ := emitVariable_eq_ok ran
  refine (((Emitted.nothing before).append (context.span? id) _).recorded entered).recast
    ?_ rfl rfl (by simp [Output.ofVariable]) ?_
  · simp [Output.ofVariable, Output.ofInstrs, Output.ofEntry]
  · intro naming _
    simp [Output.ofInstrs, Output.ofEntry, Output.ofVariable]

/-- A call finds the frame of the function that is called, and its code is that of the arguments
followed by that of the call. -/
theorem emitValue_call_eq_ok {context : Context} {id : NodeId} {name : String} {args : List Expr}
    {before : Progress} {result : Code × Progress}
    (ran : (emitValue context (.call id name args)).run before = .ok result) :
    ∃ pushed middle frame, (emitArgs context args).run before = .ok (pushed, middle) ∧
      context.calleeOf? id = some frame ∧
      (recorded id (pushed ++ codeAt (context.span? id) (callInstrs context frame))).run middle =
        .ok result := by
  simp only [emitValue, run_bind_eq_ok, run_lift_eq_ok, Context.definition_eq_ok,
    Context.frame_eq_ok] at ran
  obtain ⟨target, _, ⟨_, defined, unchanged⟩, frame, _, ⟨_, framed, unchangedAgain⟩, pushed,
    middle, emitted, finished⟩ := ran
  cases unchanged
  cases unchangedAgain
  refine ⟨pushed, middle, frame, emitted, ?_, ?_⟩
  · rw [Context.calleeOf?, defined, Option.bind_some, framed]
  · rw [callInstrs, Context.linkDistance]
    split at finished
    next shallow =>
      rw [if_pos shallow]
      exact finished
    next deep =>
      simp only [run_bind_eq_ok, run_lift_eq_ok] at finished
      obtain ⟨hops, _, ⟨_, counted, unchanged⟩, finished⟩ := finished
      cases unchanged
      rw [if_neg deep, Context.distance_eq_of_hops counted]
      exact finished

/-- The code of an operator is that of its operand followed by instructions of its own. The
address of a variable is recorded both for the use and for the operator. -/
theorem emitValue_unary_eq_ok {context : Context} {id : NodeId} {op : UnaryOp} {operand : Expr}
    {before : Progress} {result : Code × Progress}
    (ran : (emitValue context (.unary id op operand)).run before = .ok result) :
    (op ≠ .addressOf ∧ ∃ extra code middle,
      (emitValue context operand).run before = .ok (code, middle) ∧
      (recorded id (code ++ codeAt (context.span? id) extra)).run middle = .ok result ∧
      ∀ naming, valueInstrs context naming (.unary id op operand) =
        valueInstrs context naming operand ++ extra) ∨
    (op = .addressOf ∧ ∃ use name code middle, operand = .var use name ∧
      (emitVariable context use).run before = .ok (code, middle) ∧
      (recorded id code).run middle = .ok result) := by
  simp only [emitValue] at ran
  cases op with
  | plus =>
    obtain ⟨code, middle, emitted, entered⟩ := run_bind_eq_ok.mp ran
    refine .inl ⟨by decide, [], code, middle, emitted, ?_, by simp [valueInstrs]⟩
    simpa [codeAt] using entered
  | not =>
    obtain ⟨code, middle, emitted, entered⟩ := run_bind_eq_ok.mp ran
    exact .inl ⟨by decide, _, code, middle, emitted, entered, by simp [valueInstrs]⟩
  | minus =>
    obtain ⟨code, middle, emitted, entered⟩ := run_bind_eq_ok.mp ran
    exact .inl ⟨by decide, _, code, middle, emitted, entered, by simp [valueInstrs]⟩
  | valueAt =>
    obtain ⟨code, middle, emitted, entered⟩ := run_bind_eq_ok.mp ran
    exact .inl ⟨by decide, _, code, middle, emitted, entered, by simp [valueInstrs]⟩
  | addressOf =>
    dsimp only at ran
    split at ran
    next use name =>
      obtain ⟨code, middle, emitted, entered⟩ := run_bind_eq_ok.mp ran
      exact .inr ⟨rfl, use, name, code, middle, rfl, emitted, entered⟩
    next => exact (run_throw_eq_ok.mp ran).elim

/-- An operator has the data of its operand, unless it takes an address. -/
theorem valueData_unary {id : NodeId} {op : UnaryOp} {operand : Expr} (plain : op ≠ .addressOf) :
    valueData (.unary id op operand) = valueData operand := by
  cases op with
  | addressOf => exact absurd rfl plain
  | plus | not | minus | valueAt => rfl

mutual

/-- An expression emits the code for its value. -/
theorem emitted_emitValue {context : Context} {before : Progress} {result : Code × Progress} :
    (expr : Expr) → (emitValue context expr).run before = .ok result →
    Emitted (.ofValue context expr) before result.2 result.1
  | .atom id atom, ran => by
    simp only [emitValue, run_bind_eq_ok] at ran
    obtain ⟨code, middle, emitted, entered⟩ := ran
    have constant := emitted_emitAtom emitted
    by_cases text : atom.kind = .str
    · refine (constant.recordedAgain (by simp [Output.ofAtom, text]) (fun _ => rfl) entered).recast
        ?_ rfl rfl (fun _ _ inside => inside) (fun _ _ => rfl)
      simp [Output.ofAtom, Output.ofValue, Expr.ids, text]
    · refine (constant.recorded entered).recast ?_ ?_ rfl ?_ ?_
      · simp [Output.ofAtom, Output.ofEntry, Output.ofValue, Expr.ids, text]
      · simp [Output.ofAtom, Output.ofEntry, Output.ofValue]
      · simp [Output.ofValue]
      · simp [Output.ofAtom, Output.ofEntry, Output.ofValue, valueInstrs]
  | .var id name, ran => by
    simp only [emitValue, run_bind_eq_ok] at ran
    obtain ⟨place, middle, emitted, entered⟩ := ran
    have loaded := (emitted_emitVariable emitted).append (context.span? id) [.load]
    refine (loaded.recordedAgain (by simp [Output.ofVariable]) (fun _ => rfl) entered).recast
      ?_ ?_ rfl ?_ ?_
    · simp [Output.ofVariable, Output.ofInstrs, Output.ofValue, Expr.ids]
    · simp [Output.ofVariable, Output.ofInstrs, Output.ofValue, valueData]
    · simp [Output.ofValue]
    · simp [Output.ofVariable, Output.ofInstrs, Output.ofValue, valueInstrs]
  | .call id name args, ran => by
    obtain ⟨pushed, middle, frame, emitted, found, entered⟩ := emitValue_call_eq_ok ran
    have called := (emitted_emitArgs args emitted).append (context.span? id)
      (callInstrs context frame)
    refine (called.recorded entered).recast ?_ ?_ rfl ?_ ?_
    · intro other
      simp only [touched_append, Output.ofArgs, Output.ofInstrs, Output.ofEntry, Output.ofValue,
        Expr.ids, List.count_append, List.count_cons, List.count_nil]
      omega
    · simp [Output.ofArgs, Output.ofInstrs, Output.ofEntry, Output.ofValue, valueData]
    · simp [Output.ofValue]
    · have callee : calleeInstrs context id = callInstrs context frame := by
        rw [calleeInstrs, found]
      simp [Output.ofArgs, Output.ofInstrs, Output.ofEntry, Output.ofValue, valueInstrs, callee]
  | .unary id op operand, ran => by
    rcases emitValue_unary_eq_ok ran with ⟨plain, extra, code, middle, emitted, entered, instrs⟩ |
      ⟨rfl, use, name, code, middle, rfl, emitted, entered⟩
    · have extended := (emitted_emitValue operand emitted).append (context.span? id) extra
      refine (extended.recorded entered).recast ?_ ?_ rfl ?_ ?_
      · intro other
        simp only [touched_append, Output.ofInstrs, Output.ofEntry, Output.ofValue, Expr.ids,
          List.count_append, List.count_cons, List.count_nil]
        omega
      · simp [Output.ofInstrs, Output.ofEntry, Output.ofValue, valueData_unary plain]
      · simp [Output.ofValue]
      · simp [Output.ofInstrs, Output.ofEntry, Output.ofValue, instrs]
    · refine ((emitted_emitVariable emitted).recorded entered).recast ?_ ?_ rfl ?_ ?_
      · intro other
        simp only [touched_append, Output.ofVariable, Output.ofEntry, Output.ofValue, Expr.ids,
          List.count_append, List.count_cons, List.count_nil]
        omega
      · simp [Output.ofVariable, Output.ofEntry, Output.ofValue, valueData]
      · simp [Output.ofValue]
      · simp [Output.ofVariable, Output.ofEntry, Output.ofValue, valueInstrs, Expr.id]
  | .binary id op first second, ran => by
    simp only [emitValue, run_bind_eq_ok] at ran
    obtain ⟨left, middle, emittedLeft, right, later, emittedRight, entered⟩ := ran
    have both := (emitted_emitValue first emittedLeft).trans (emitted_emitValue second emittedRight)
    refine ((both.append (context.span? id) [.binary op]).recorded entered).recast ?_ ?_ rfl ?_ ?_
    · intro other
      simp only [touched_append, Output.ofInstrs, Output.ofEntry, Output.ofValue, Expr.ids,
        List.count_append, List.count_cons, List.count_nil]
      omega
    · simp [Output.ofInstrs, Output.ofEntry, Output.ofValue, valueData]
    · simp [Output.ofValue]
    · simp [Output.ofInstrs, Output.ofEntry, Output.ofValue, valueInstrs]

/-- Arguments emit the code that pushes them. -/
theorem emitted_emitArgs {context : Context} {before : Progress} {result : Code × Progress} :
    (args : List Expr) → (emitArgs context args).run before = .ok result →
    Emitted (.ofArgs context args) before result.2 result.1
  | [], ran => by
    simp only [emitArgs, run_pure_eq_ok] at ran
    subst ran
    exact .nothing before
  | arg :: rest, ran => by
    simp only [emitArgs, run_bind_eq_ok, run_pure_eq_ok] at ran
    obtain ⟨later, middle, emittedRest, code, after, emittedArg, rfl⟩ := ran
    refine ((emitted_emitArgs rest emittedRest).trans (emitted_emitValue arg emittedArg)).recast
      ?_ rfl rfl (by simp [Output.ofArgs]) (fun _ _ => rfl)
    intro other
    simp only [touched_append, Output.ofArgs, Output.ofValue, idsOfExprs, List.count_append]
    omega

end

/-- A place emits the code for its address. -/
theorem emitted_emitPlace {context : Context} {expr : Expr} {before : Progress}
    {result : Code × Progress} (ran : (emitPlace context expr).run before = .ok result) :
    Emitted (.ofPlace context expr) before result.2 result.1 := by
  rw [emitPlace.eq_def] at ran
  split at ran
  next id name =>
    exact (emitted_emitVariable ran).recast (fun _ => Nat.le_refl _) rfl rfl
      (fun _ _ inside => inside) (fun _ _ => rfl)
  next id pointer =>
    split at ran
    · obtain ⟨_, _, thrown, -⟩ := run_bind_eq_ok.mp ran
      exact (run_throw_eq_ok.mp thrown).elim
    obtain ⟨code, middle, emitted, entered⟩ := run_bind_eq_ok.mp ran
    refine ((emitted_emitValue pointer emitted).recorded entered).recast ?_ ?_ rfl ?_ ?_
    · intro other
      simp only [touched_append, Output.ofValue, Output.ofEntry, Output.ofPlace, Expr.ids,
        List.count_append, List.count_cons, List.count_nil]
      omega
    · simp [Output.ofValue, Output.ofEntry, Output.ofPlace, placeData]
    · simp [Output.ofPlace]
    · simp [Output.ofValue, Output.ofEntry, Output.ofPlace, placeInstrs]
  next => exact (run_throw_eq_ok.mp ran).elim

end ScopeStack.Emission
