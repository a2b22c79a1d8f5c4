import ScopeStack.Proofs.Compilation
import ScopeStack.Proofs.Emission.Pieces
import ScopeStack.Proofs.Layout.Room

/-!
# The stack is balanced

`Instr.effect` says how many words an instruction takes from the stack and puts
there. The code of a function is balanced if its positions can be given depths
that agree along every step that the code can take, a jump included. `depthAt`
adds the effects up from the start of the code as if there were no jumps. Compiled
code only jumps between places where nothing but the local variables is on the
stack, so this is such an assignment.

`Rises` is what the induction over pieces shows: a part of the code raises the
depth by a certain number, never reaches below the depth where it started, and
has its labels and jumps at the depth of the statements around it.
-/

namespace ScopeStack

/-- The words that an instruction takes from the stack and then puts there. -/
structure Effect where
  pops : Int
  pushes : Int

/-- The effect of an instruction that comes after `previous` and calls a function
with `params` parameters. A call takes the arguments, the access link and the
address, and leaves the result. A shift by a number of bytes takes the number
from the instruction before it. -/
def Instr.effect (previous : Option Instr) (params : Nat) : Instr → Effect
  | .label _ => ⟨0, 0⟩
  | .push _ | .name _ | .regn _ => ⟨0, 1⟩
  | .load | .unary _ => ⟨1, 1⟩
  | .binary _ => ⟨2, 1⟩
  | .save | .init | .retn _ => ⟨2, 0⟩
  | .ujmp => ⟨1, 0⟩
  | .cjmp => ⟨3, 0⟩
  | .call _ => ⟨params + 2, 1⟩
  | .popn =>
    match previous with
    | some (.push bytes) => if bytes < 0 then ⟨1, -bytes / 4⟩ else ⟨1 + bytes / 4, 0⟩
    | _ => ⟨1, 0⟩

/-- Execution goes on behind an instruction. -/
def Instr.continues : Instr → Bool
  | .ujmp | .cjmp | .retn _ => false
  | _ => true

/-- The instruction before a position. -/
def previous? (code : List Instr) : Nat → Option Instr
  | 0 => none
  | position + 1 => code[position]?

/-- A label of a branch; the label at the start of the code is that of the
function. -/
def BranchAt (code : List Instr) (label : String) (position : Nat) : Prop :=
  0 < position ∧ code[position]? = some (.label label)

/-- Execution may go from a position of a function's code to another one. A jump
goes to a label whose address has been pushed right before it. -/
inductive Successor (code : List Instr) : Nat → Nat → Prop
  | next {position : Nat} {instr : Instr} (here : code[position]? = some instr)
      (continues : instr.continues = true) : Successor code position (position + 1)
  | jump {position target : Nat} {label : String} (here : code[position]? = some .ujmp)
      (named : previous? code position = some (.name label)) (bound : BranchAt code label target) :
      Successor code position target
  | yes {position target : Nat} {label : String} (here : code[position + 1]? = some .cjmp)
      (named : previous? code (position + 1) = some (.name label))
      (bound : BranchAt code label target) : Successor code (position + 1) target
  | no {position target : Nat} {label : String} (here : code[position + 1]? = some .cjmp)
      (named : previous? code position = some (.name label))
      (bound : BranchAt code label target) : Successor code (position + 1) target

/-- Before a jump stand the names of labels of the code, and before a shift the
number of its bytes, which are whole words. -/
def Prepared (code : List Instr) (position : Nat) : Prop :=
  match code[position]? with
  | some .ujmp =>
    ∃ label target, previous? code position = some (.name label) ∧ BranchAt code label target
  | some .cjmp =>
    ∃ before yes no whenYes whenNo, position = before + 1 ∧
      previous? code (before + 1) = some (.name yes) ∧ previous? code before = some (.name no) ∧
      BranchAt code yes whenYes ∧ BranchAt code no whenNo
  | some .popn => ∃ bytes, previous? code position = some (.push bytes) ∧ 4 ∣ bytes
  | _ => True

section Depth

variable (code : List Instr) (params : Nat → Nat)

/-- The effect of the instruction at a position. -/
def effectAt (position : Nat) : Effect :=
  match code[position]? with
  | some instr => instr.effect (previous? code position) (params position)
  | none => ⟨0, 0⟩

/-- Depths agree with the effects of the instructions along every step, and jumps and
shifts find their operands. Depths are in words, from the header of the frame
downward. -/
structure Balanced (depth : Nat → Int) : Prop where
  start : depth 0 = 0
  flow {position next : Nat} : Successor code position next →
    depth next = depth position - (effectAt code params position).pops +
      (effectAt code params position).pushes
  prepared (position : Nat) : Prepared code position

/-- The depth before an instruction when the code up to it has been executed from
start to end. -/
def depthAt : Nat → Int
  | 0 => 0
  | position + 1 =>
    depthAt position - (effectAt code params position).pops +
      (effectAt code params position).pushes

end Depth

/-- How far above the variables of its function an instruction stands: a label
where no statement is under way, a jump or return above its operands. -/
def Instr.height? : Instr → Option Int
  | .label _ => some 0
  | .ujmp => some 1
  | .retn _ => some 2
  | .cjmp => some 3
  | _ => none

/-- The instruction neither starts nor ends straight code, and its effect does not
depend on the instruction before it. -/
def Instr.isPlain : Instr → Bool
  | .label _ | .ujmp | .retn _ | .cjmp | .popn | .call _ => false
  | _ => true

/-- A plain instruction does not ask for a height of the stack. -/
theorem Instr.height?_of_isPlain {instr : Instr} (isPlain : instr.isPlain = true) :
    instr.height? = none := by
  cases instr <;> first | rfl | nomatch isPlain

/-- The instruction at a position has its operands before it, calls what may be
called with that many parameters, and stands at the right height above a
level. -/
structure Settled (code : List Instr) (params : Nat → Nat) (calls : Option String → Nat → Prop)
    (level : Int) (position : Nat) : Prop where
  prepared : Prepared code position
  called {callee : Option String} : code[position]? = some (.call callee) →
    calls callee (params position)
  high {instr : Instr} {height : Int} : code[position]? = some instr →
    instr.height? = some height → depthAt code params position = level + height

/-- A part of the code raises the depth by a number of words, never reaches below
the depth where it starts, and is settled on a level. -/
structure Rises (code : List Instr) (params : Nat → Nat) (calls : Option String → Nat → Prop)
    (level : Int) (start stop : Nat) (gain : Int) : Prop where
  gain : depthAt code params stop = depthAt code params start + gain
  floor {position : Nat} : start ≤ position → position < stop →
    depthAt code params start + (effectAt code params position).pops ≤ depthAt code params position
  settled {position : Nat} : start ≤ position → position < stop →
    Settled code params calls level position

/-- The effect of the instruction at a position. -/
theorem effectAt_of_some {code : List Instr} {params : Nat → Nat} {position : Nat} {instr : Instr}
    (here : code[position]? = some instr) :
    effectAt code params position = instr.effect (previous? code position) (params position) := by
  rw [effectAt, here]

namespace Rises

variable {code : List Instr} {params : Nat → Nat} {calls : Option String → Nat → Prop} {level : Int}
  {start stop last : Nat} {gain more pops pushes result : Int}

/-- Nothing is gained before the first instruction. -/
theorem refl : Rises code params calls level start start 0 where
  gain := (Int.add_zero _).symm
  floor low high := absurd low (Nat.not_le.mpr high)
  settled low high := absurd low (Nat.not_le.mpr high)

/-- Two parts one after the other. -/
theorem seq (first : Rises code params calls level start stop gain) (up : 0 ≤ gain)
    (second : Rises code params calls level stop last more) :
    Rises code params calls level start last (gain + more) where
  gain := by rw [second.gain, first.gain, Int.add_assoc]
  floor {position} low high := by
    rcases Nat.lt_or_ge position stop with before | after
    · exact first.floor low before
    · have reached := second.floor after high
      have raised := first.gain
      omega
  settled {position} low high := by
    rcases Nat.lt_or_ge position stop with before | after
    · exact first.settled low before
    · exact second.settled after high

/-- A part and the instruction behind it. -/
theorem step {instr : Instr} (rises : Rises code params calls level start stop gain)
    (here : code[stop]? = some instr) (settled : Settled code params calls level stop)
    (effect : instr.effect (previous? code stop) (params stop) = ⟨pops, pushes⟩)
    (enough : pops ≤ gain) (total : gain - pops + pushes = result) :
    Rises code params calls level start (stop + 1) result := by
  have own : effectAt code params stop = ⟨pops, pushes⟩ := (effectAt_of_some here).trans effect
  have raised := rises.gain
  refine ⟨?_, fun {position} low high => ?_, fun {position} low high => ?_⟩
  · simp only [depthAt, own]
    omega
  · rcases Nat.lt_succ_iff_lt_or_eq.mp high with before | same
    · exact rises.floor low before
    · subst same
      simp only [own]
      omega
  · rcases Nat.lt_succ_iff_lt_or_eq.mp high with before | same
    · exact rises.settled low before
    · subst same
      exact settled

/-- A piece goes on with a plain instruction, which takes some of what has been gained. -/
theorem plain {instr : Instr} (rises : Rises code params calls level start stop gain)
    (here : code[stop]? = some instr) (isPlain : instr.isPlain = true)
    (effect : instr.effect none (params stop) = ⟨pops, pushes⟩)
    (enough : pops ≤ gain) (total : gain - pops + pushes = result) :
    Rises code params calls level start (stop + 1) result := by
  have settled : Settled code params calls level stop := by
    refine ⟨?_, fun {callee} found => ?_, fun {other height} found high => ?_⟩
    · rw [Prepared, here]
      cases instr <;> first | exact trivial | nomatch isPlain
    · cases found.symm.trans here
      cases isPlain
    · cases found.symm.trans here
      rw [Instr.height?_of_isPlain isPlain] at high
      cases high
  have same : instr.effect (previous? code stop) (params stop) = instr.effect none (params stop) := by
    cases instr <;> first | rfl | nomatch isPlain
  exact rises.step here settled (same.trans effect) enough total

/-- A label on the level of statements. -/
theorem label {label : String} (rises : Rises code params calls level start stop 0)
    (base : depthAt code params start = level) (here : code[stop]? = some (.label label)) :
    Rises code params calls level start (stop + 1) 0 := by
  refine rises.step here ⟨?_, fun {callee} found => ?_, fun {instr height} found high => ?_⟩ rfl
    (by decide) (by decide)
  · rw [Prepared, here]
    exact trivial
  · cases found.symm.trans here
  · cases found.symm.trans here
    cases high
    rw [rises.gain, base]

/-- A jump to a label of the code. -/
theorem jump {label : String} {target : Nat} (rises : Rises code params calls level start stop 0)
    (base : depthAt code params start = level) (bound : BranchAt code label target)
    (named : code[stop]? = some (.name label)) (here : code[stop + 1]? = some .ujmp) :
    Rises code params calls level start (stop + 1 + 1) 0 := by
  have pushed : Rises code params calls level start (stop + 1) 1 :=
    rises.plain named rfl rfl (by decide) (by decide)
  refine pushed.step here ⟨?_, fun {callee} found => ?_, fun {instr height} found high => ?_⟩ rfl
    (by decide) (by decide)
  · rw [Prepared, here]
    exact ⟨label, target, named, bound⟩
  · cases found.symm.trans here
  · cases found.symm.trans here
    cases high
    rw [pushed.gain, base]

/-- A branch between two labels of the code, on a condition. -/
theorem branch {yes no : String} {whenYes whenNo : Nat}
    (rises : Rises code params calls level start stop 1) (base : depthAt code params start = level)
    (boundYes : BranchAt code yes whenYes) (boundNo : BranchAt code no whenNo)
    (namedNo : code[stop]? = some (.name no)) (namedYes : code[stop + 1]? = some (.name yes))
    (here : code[stop + 1 + 1]? = some .cjmp) :
    Rises code params calls level start (stop + 1 + 1 + 1) 0 := by
  have pushedNo : Rises code params calls level start (stop + 1) 2 :=
    rises.plain namedNo rfl rfl (by decide) (by decide)
  have pushed : Rises code params calls level start (stop + 1 + 1) 3 :=
    pushedNo.plain namedYes rfl rfl (by decide) (by decide)
  refine pushed.step here ⟨?_, fun {callee} found => ?_, fun {instr height} found high => ?_⟩ rfl
    (by decide) (by decide)
  · rw [Prepared, here]
    exact ⟨stop + 1, yes, no, whenYes, whenNo, rfl, namedYes, namedNo, boundYes, boundNo⟩
  · cases found.symm.trans here
  · cases found.symm.trans here
    cases high
    rw [pushed.gain, base]

/-- A shift after the number of its bytes is settled on every level. -/
theorem settled_shift {bytes : Int} (words : 4 ∣ bytes) (pushed : code[stop]? = some (.push bytes))
    (here : code[stop + 1]? = some .popn) : Settled code params calls level (stop + 1) := by
  refine ⟨?_, fun {callee} found => ?_, fun {instr height} found high => ?_⟩
  · rw [Prepared, here]
    exact ⟨bytes, pushed, words⟩
  · cases found.symm.trans here
  · cases found.symm.trans here
    cases high

/-- A shift by whole words after the number of its bytes. -/
theorem shift {bytes : Int} (rises : Rises code params calls level start stop gain) (up : 0 ≤ gain)
    (words : 4 ∣ bytes)
    (pushed : code[stop]? = some (.push bytes)) (here : code[stop + 1]? = some .popn)
    (effect : Instr.effect (some (.push bytes)) 0 .popn = ⟨pops, pushes⟩)
    (enough : pops ≤ gain + 1) (total : gain + 1 - pops + pushes = result) :
    Rises code params calls level start (stop + 1 + 1) result := by
  have counted : Rises code params calls level start (stop + 1) (gain + 1) :=
    rises.plain pushed rfl rfl up (by omega)
  refine counted.step here (settled_shift words pushed here) ?_ enough total
  rw [← effect, previous?, pushed]
  rfl

/-- The return of a function, above the result and the size of the parameters. -/
theorem finish {bytes : Int} {name : Option String}
    (rises : Rises code params calls level start stop (gain + 1)) (up : 0 ≤ gain)
    (base : depthAt code params start + gain = level)
    (pushed : code[stop]? = some (.push bytes)) (here : code[stop + 1]? = some (.retn name)) :
    Rises code params calls level start (stop + 1 + 1) gain := by
  have sized : Rises code params calls level start (stop + 1) (gain + 2) :=
    rises.plain pushed rfl rfl (by omega) (by omega)
  refine sized.step here ⟨?_, fun {callee} found => ?_, fun {instr height} found high => ?_⟩ rfl
    (by omega) (by omega)
  · rw [Prepared, here]
    exact trivial
  · cases found.symm.trans here
  · cases found.symm.trans here
    cases high
    rw [sized.gain, ← base, Int.add_assoc]

end Rises

section Whole

variable {code : List Instr} {params : Nat → Nat} {calls : Option String → Nat → Prop} {level : Int}
  {name : String} (labelled : code[0]? = some (.label name))

include labelled

/-- The label of a function leaves the stack empty. -/
theorem depthAt_one : depthAt code params 1 = 0 := by
  rw [depthAt, effectAt_of_some labelled]
  rfl

/-- Code that is settled behind the label of its function is balanced. -/
theorem balanced_of_settled
    (settled : ∀ {position : Nat} {instr : Instr}, 0 < position → code[position]? = some instr →
      Settled code params calls level position) :
    Balanced code params (depthAt code params) where
  start := rfl
  flow {position next} step := by
    cases step with
    | next here continues => rfl
    | jump here named bound =>
      have positive : 0 < position := by
        rcases Nat.eq_zero_or_pos position with rfl | positive
        · cases named
        · exact positive
      rw [effectAt_of_some here, (settled positive here).high here rfl,
        (settled bound.1 bound.2).high bound.2 rfl]
      simp [Instr.effect]
    | yes here named bound =>
      rw [effectAt_of_some here, (settled (Nat.succ_pos _) here).high here rfl,
        (settled bound.1 bound.2).high bound.2 rfl]
      simp [Instr.effect]
    | no here named bound =>
      rw [effectAt_of_some here, (settled (Nat.succ_pos _) here).high here rfl,
        (settled bound.1 bound.2).high bound.2 rfl]
      simp [Instr.effect]
  prepared position := by
    rcases Nat.eq_zero_or_pos position with rfl | positive
    · rw [Prepared, labelled]
      exact trivial
    · cases here : code[position]? with
      | none =>
        rw [Prepared, here]
        exact trivial
      | some instr => exact (settled positive here).prepared

end Whole

namespace Emission

/-- The words by which a piece raises the stack. -/
def Piece.gain : Piece → Int
  | .value _ | .place _ => 1
  | .args exprs => exprs.length
  | .stmt tail own => if tail && own.leavesValue then 1 else 0
  | .stmts tail body => if tail && leavesValue body then 1 else 0

section Expressions

variable {code : List Instr} {params : Nat → Nat} {calls : Option String → Nat → Prop} {level : Int}
  {context : Context}

/-- Going up the access links leaves one address. -/
theorem rises_framePointer {start : Nat} (hops : Nat) (lies : Lies code start (framePointer hops)) :
    Rises code params calls level start (start + (framePointer hops).length) 1 := by
  induction hops with
  | zero => exact Rises.refl.plain lies.1 rfl rfl (by decide) (by decide)
  | succ hops hypothesis =>
    have split : framePointer (hops + 1) = framePointer hops ++ [.load] := by
      rw [framePointer, List.replicate_succ', framePointer, List.cons_append]
    rw [split, lies_append] at lies
    rw [split, List.length_append]
    exact (hypothesis lies.1).plain lies.2.1 rfl rfl (by decide) (by decide)

/-- The address of a variable is one word. -/
theorem rises_variable {id : NodeId} {start : Nat} (emits : Emits (emitVariable context id))
    (lies : Lies code start (variableInstrs context id)) :
    Rises code params calls level start (start + (variableInstrs context id).length) 1 := by
  simp only [emitVariable] at emits
  split at emits
  · exact absurd emits.bind.1 not_emits_throw
  obtain ⟨target, found, emits⟩ := emits.lift
  obtain ⟨access, accessed, -⟩ := emits.lift
  have placed : context.accessOf? id = some access := by
    rw [Context.accessOf?, Context.definition_eq_ok.mp found]
    exact Context.access_eq_ok.mp accessed
  rw [variableInstrs, placed] at lies ⊢
  cases access with
  | abs access => exact Rises.refl.plain lies.1 rfl rfl (by decide) (by decide)
  | rel access =>
    obtain ⟨liesBase, liesOffset, liesAdd, -⟩ := lies_append.mp lies
    rw [List.length_append]
    exact ((rises_framePointer _ liesBase).plain liesOffset rfl rfl (by decide) rfl).plain liesAdd
      rfl rfl (by decide) (by decide)

variable {arities : List Nat} {naming : Naming} {rule : Rule}

/-- The numbers of parameters that a list of arities gives to positions. -/
def paramsOf (arities : List Nat) (position : Nat) : Nat := (arities[position]?).getD 0

/-- The code of a call ends in the instruction that makes the call. -/
theorem Carries.call {start count : Nat} {callee : Frame}
    (carries : Carries code arities start (callInstrs context callee)
      (aritiesOf count (callInstrs context callee))) :
    ∃ position, start + (callInstrs context callee).length = position + 1 ∧
      code[position]? = some (.call (some callee.name)) ∧ paramsOf arities position = count := by
  rw [callInstrs, aritiesOf, List.map_append] at carries
  have target := carries.right (List.length_map _) rfl
  obtain ⟨-, given, -⟩ := target.counted
  refine ⟨_, ?_, target.lies.2.1, ?_⟩
  · rw [callInstrs, List.length_append, ← Nat.add_assoc]
    rfl
  · rw [paramsOf, given]
    rfl

/-- A call takes its arguments and leaves its result. -/
theorem rises_call {start stop count : Nat} {callee : Frame}
    (allowed : calls (some callee.name) count)
    (pushed : Rises code (paramsOf arities) calls level start stop count)
    (carries : Carries code arities stop (callInstrs context callee)
      (aritiesOf count (callInstrs context callee))) :
    Rises code (paramsOf arities) calls level start (stop + (callInstrs context callee).length) 1 := by
  obtain ⟨position, ends, here, given⟩ := carries.call
  obtain ⟨liesLink, liesName, -⟩ := lies_append.mp carries.lies
  have linkPushed := pushed.seq (Int.natCast_nonneg _) (rises_framePointer _ liesLink)
  have namePushed := linkPushed.plain liesName rfl rfl (by omega) rfl
  have same : stop + (framePointer (context.linkDistance callee)).length + 1 = position := by
    rw [callInstrs, List.length_append, ← Nat.add_assoc] at ends
    exact Nat.succ.inj ends
  rw [same] at namePushed
  rw [ends]
  have taken : Instr.effect (previous? code position) (paramsOf arities position)
      (.call (some callee.name)) =
      ⟨count + 2, 1⟩ := by rw [Instr.effect, given]
  refine namePushed.step here ⟨?_, fun found => ?_, fun found high => ?_⟩ taken (by omega) (by omega)
  · rw [Prepared, here]
    exact trivial
  · cases found.symm.trans here
    exact given ▸ allowed
  · cases found.symm.trans here
    cases high

/-- A call that can be emitted has a frame to call. -/
theorem Located.callee {start : Nat} {id : NodeId} {name : String} {args : List Expr}
    (located : Located code arities context naming rule start (.value (.call id name args))) :
    ∃ frame, context.calleeOf? id = some frame := by
  obtain ⟨target, found, emits⟩ := located.emits.lift
  obtain ⟨frame, framed, -⟩ := emits.lift
  refine ⟨frame, ?_⟩
  rw [Context.calleeOf?, Context.definition_eq_ok.mp found]
  exact Context.frame_eq_ok.mp framed

/-- A call that obeys a rule may be made. -/
def Permits (rule : Rule) (context : Context) (calls : Option String → Nat → Prop) : Prop :=
  ∀ (scope : Scope) (id : NodeId) (name : String) (args : List Expr) (callee : Frame),
    rule.expr scope (.call id name args) → context.calleeOf? id = some callee →
    calls (some callee.name) args.length

mutual

/-- The code of an expression pushes its value. -/
theorem rises_value (permits : Permits rule context calls) {start : Nat} : (expr : Expr) →
    Located code arities context naming rule start (.value expr) →
    Rises code (paramsOf arities) calls level start
      (start + (valueInstrs context naming expr).length) 1
  | .atom id atom, located => by
    have lies := located.carries.lies
    simp only [Piece.instrs, valueInstrs, atomInstrs] at lies ⊢
    split at lies
    · exact Rises.refl.plain lies.1 rfl rfl (by decide) (by decide)
    · exact Rises.refl.plain lies.1 rfl rfl (by decide) (by decide)
  | .var id name, located => by
    have lies := lies_append.mp located.carries.lies
    have emits := (located.child _ List.mem_cons_self).emits
    rw [valueInstrs, List.length_append]
    exact (rises_variable emits lies.1).plain lies.2.1 rfl rfl (by decide) (by decide)
  | .call id name args, located => by
    have pushed := rises_args permits args (located.child _ List.mem_cons_self)
    have callee := located.carries.right (length_argArities args) rfl
    obtain ⟨frame, linked⟩ := located.callee
    obtain ⟨scope, obeys⟩ := located.obeys
    simp only [valueInstrs, calleeInstrs, linked, List.length_append, ← Nat.add_assoc] at callee ⊢
    exact rises_call (permits _ _ _ _ _ obeys.1 linked) pushed callee
  | .unary id .plus operand, located => rises_value permits operand (located.unary nofun)
  | .unary id .not operand, located => by
    have lies := (lies_append.mp located.carries.lies).2
    rw [valueInstrs, List.length_append]
    exact (rises_value permits operand (located.unary nofun)).plain lies.1 rfl rfl
      (by decide) (by decide)
  | .unary id .minus operand, located => by
    have lies := (lies_append.mp located.carries.lies).2
    rw [valueInstrs, List.length_append]
    exact (rises_value permits operand (located.unary nofun)).plain lies.1 rfl rfl
      (by decide) (by decide)
  | .unary id .valueAt operand, located => by
    have lies := (lies_append.mp located.carries.lies).2
    rw [valueInstrs, List.length_append]
    exact (rises_value permits operand (located.unary nofun)).plain lies.1 rfl rfl
      (by decide) (by decide)
  | .unary id .addressOf (.var use name), located =>
    rises_variable (located.child _ List.mem_cons_self).emits located.carries.lies
  | .unary id .addressOf (.atom _ _), located
  | .unary id .addressOf (.call _ _ _), located
  | .unary id .addressOf (.unary _ _ _), located
  | .unary id .addressOf (.binary _ _ _ _), located => absurd located.emits not_emits_throw
  | .binary id op first second, located => by
    have lies := (lies_append.mp located.carries.lies).2
    have left := rises_value permits first (located.child _ List.mem_cons_self)
    have right := rises_value permits second
      (located.child _ (List.mem_cons_of_mem _ List.mem_cons_self))
    simp only [valueInstrs, List.length_append, ← Nat.add_assoc] at lies ⊢
    exact (left.seq (by decide) right).plain lies.1 rfl rfl (by decide) (by decide)

/-- The code of arguments pushes their values. -/
theorem rises_args (permits : Permits rule context calls) {start : Nat} : (args : List Expr) →
    Located code arities context naming rule start (.args args) →
    Rises code (paramsOf arities) calls level start (start + (argInstrs context naming args).length)
      args.length
  | [], _ => Rises.refl
  | arg :: rest, located => by
    have later := rises_args permits rest (located.child _ List.mem_cons_self)
    have own := rises_value permits arg (located.child _ (List.mem_cons_of_mem _ List.mem_cons_self))
    rw [argInstrs, List.length_append, List.length_cons, ← Nat.add_assoc, Int.natCast_add]
    exact later.seq (Int.natCast_nonneg _) own

end

/-- The code of a place pushes its address. -/
theorem rises_place (permits : Permits rule context calls) {start : Nat} : (place : Expr) →
    Located code arities context naming rule start (.place place) →
    Rises code (paramsOf arities) calls level start
      (start + (placeInstrs context naming place).length) 1
  | .var _ _, located => rises_variable located.emits located.carries.lies
  | .unary _ .valueAt pointer, located =>
    rises_value permits pointer (located.child _ List.mem_cons_self)
  | .atom _ _, located
  | .call _ _ _, located
  | .binary _ _ _ _, located
  | .unary _ .plus _, located
  | .unary _ .not _, located
  | .unary _ .minus _, located
  | .unary _ .addressOf _, located => absurd located.emits not_emits_throw

end Expressions

section Statements

variable {code : List Instr} {params : Nat → Nat} {calls : Option String → Nat → Prop} {level : Int}
  {arities : List Nat} {context : Context} {naming : Naming} {rule : Rule}

/-- The code that gives variables their initial words leaves the stack as it
was. -/
theorem rises_locals {start : Nat} (defs : List Def)
    (lies : Lies code start (localsInstrs context naming defs)) :
    Rises code params calls level start (start + (localsInstrs context naming defs).length) 0 := by
  induction defs generalizing start with
  | nil => exact Rises.refl
  | cons definition rest hypothesis =>
    cases definition with
    | fn function => exact hypothesis lies
    | var declared =>
      rw [localsInstrs, lies_append] at lies
      rw [localsInstrs, List.length_append, ← Nat.add_assoc]
      refine Rises.seq ?_ (Int.le_refl 0) (hypothesis lies.2)
      replace lies := lies.1
      rw [localInstrs] at lies ⊢
      split at lies
      · obtain ⟨liesBase, liesOffset, liesAdd, liesName, liesInit, -⟩ := lies
        exact ((((Rises.refl.plain liesBase rfl rfl (by decide) rfl).plain liesOffset rfl rfl
          (by decide) rfl).plain liesAdd rfl rfl (by decide) rfl).plain liesName rfl rfl
          (by decide) rfl).plain liesInit rfl rfl (by decide) (by decide)
      · exact Rises.refl

mutual

/-- The code of a statement leaves the stack as it was, unless it leaves the value
of the function. -/
theorem rises_stmt (permits : Permits rule context calls) {start : Nat} {tail : Bool} :
    (stmt : Stmt) →
    Located code arities context naming rule start (.stmt tail stmt) → 0 < start →
    depthAt code (paramsOf arities) start = level →
    Rises code (paramsOf arities) calls level start
      (start + (stmtInstrs context naming tail stmt).length) (Piece.gain (.stmt tail stmt))
  | .expr id own, located, _, _ => by
    have value : Rises code (paramsOf arities) calls level start _ 1 :=
      rises_value permits own (located.child _ List.mem_cons_self)
    obtain ⟨-, lies⟩ := lies_append.mp located.carries.lies
    cases tail with
    | true =>
      rw [stmtInstrs, if_pos rfl, List.append_nil]
      exact value
    | false =>
      rw [stmtInstrs, List.length_append, ← Nat.add_assoc]
      exact value.shift (by decide) (by decide) lies.1 lies.2.1 rfl (by decide) rfl
  | .assign id target source, located, _, _ => by
    have value : Rises code (paramsOf arities) calls level start _ 1 :=
      rises_value permits source (located.child _ List.mem_cons_self)
    have place : Rises code (paramsOf arities) calls level _ _ 1 :=
      rises_place permits target (located.child _ (List.mem_cons_of_mem _ List.mem_cons_self))
    obtain ⟨-, save, -⟩ := lies_append.mp located.carries.lies
    simp only [stmtInstrs, List.length_append, ← Nat.add_assoc] at save ⊢
    exact (value.seq (by decide) place).plain save rfl rfl (by decide)
      (by simp [Piece.gain, Stmt.leavesValue])
  | .cond id test yes no, located, positive, base => by
    obtain ⟨lies, bindEnd, -⟩ := lies_append.mp located.carries.lies
    obtain ⟨lies, -⟩ := lies_append.mp lies
    obtain ⟨lies, nameEnd, jump, bindElse, -⟩ := lies_append.mp lies
    obtain ⟨lies, -⟩ := lies_append.mp lies
    obtain ⟨-, nameElse, nameThen, branch, bindThen, -⟩ := lies_append.mp lies
    simp only [stmtInstrs, List.length_append, List.length_cons, List.length_nil, Nat.add_zero,
      ← Nat.add_assoc] at bindEnd nameEnd jump bindElse nameElse nameThen branch bindThen ⊢
    have tested : Rises code (paramsOf arities) calls level start _ 1 :=
      rises_value permits test (located.child _ List.mem_cons_self)
    have entered := (tested.branch base ⟨by omega, bindThen⟩ ⟨by omega, bindElse⟩ nameElse nameThen
      branch).label base bindThen
    have ranYes := entered.seq (by decide) (rises_stmts permits yes
      (located.child _ (List.mem_cons_of_mem _ List.mem_cons_self)) (by omega)
      (entered.gain.trans (by omega)))
    have left := (ranYes.jump base ⟨by omega, bindEnd⟩ nameEnd jump).label base bindElse
    have locatedNo := located.child _
      (List.mem_cons_of_mem _ (List.mem_cons_of_mem _ List.mem_cons_self))
    simp only [← Nat.add_assoc] at locatedNo
    have ranNo := left.seq (by decide)
      (rises_stmts permits no locatedNo (by omega) (left.gain.trans (by omega)))
    have gains : Piece.gain (.stmt tail (.cond id test yes no)) = 0 := by
      simp [Piece.gain, Stmt.leavesValue]
    rw [gains]
    exact ranNo.label base bindEnd
  | .loop id test body, located, positive, base => by
    obtain ⟨lies, nameWhile, jump, bindEnd, -⟩ := lies_append.mp located.carries.lies
    obtain ⟨lies, -⟩ := lies_append.mp lies
    obtain ⟨lies, nameEnd, nameDo, branch, bindDo, -⟩ := lies_append.mp lies
    obtain ⟨⟨bindWhile, -⟩, -⟩ := lies_append.mp lies
    simp only [stmtInstrs, List.length_append, List.length_cons, List.length_nil, Nat.zero_add,
      ← Nat.add_assoc] at nameWhile jump bindEnd nameEnd nameDo branch bindDo ⊢
    have headed : Rises code (paramsOf arities) calls level start (start + 1) 0 :=
      Rises.refl.label base bindWhile
    have tested := headed.seq (by decide)
      (rises_value permits test (located.child _ List.mem_cons_self))
    have entered := (tested.branch base ⟨by omega, bindDo⟩ ⟨by omega, bindEnd⟩ nameEnd nameDo
      branch).label base bindDo
    have locatedBody := located.child _ (List.mem_cons_of_mem _ List.mem_cons_self)
    simp only [← Nat.add_assoc] at locatedBody
    have ran := entered.seq (by decide)
      (rises_stmts permits body locatedBody (by omega) (entered.gain.trans (by omega)))
    have gains : Piece.gain (.stmt tail (.loop id test body)) = 0 := by
      simp [Piece.gain, Stmt.leavesValue]
    rw [gains]
    exact (ran.jump base ⟨positive, bindWhile⟩ nameWhile jump).label base bindEnd
  | .block id defs body, located, positive, base => by
    obtain ⟨lies, -⟩ := lies_append.mp located.carries.lies
    have ready : Rises code (paramsOf arities) calls level start _ 0 := rises_locals defs lies
    have ran := ready.seq (by decide) (rises_stmts permits body
      (located.child _ List.mem_cons_self) (by omega) (ready.gain.trans (by omega)))
    rw [Int.zero_add] at ran
    rw [stmtInstrs, List.length_append, ← Nat.add_assoc]
    exact ran

/-- The code of statements leaves the stack as it was, unless they leave the value
of the function. -/
theorem rises_stmts (permits : Permits rule context calls) {start : Nat} {tail : Bool} :
    (stmts : List Stmt) →
    Located code arities context naming rule start (.stmts tail stmts) → 0 < start →
    depthAt code (paramsOf arities) start = level →
    Rises code (paramsOf arities) calls level start
      (start + (stmtsInstrs context naming tail stmts).length) (Piece.gain (.stmts tail stmts))
  | [], _, _, _ => by
    have gains : Piece.gain (.stmts tail []) = 0 := by simp [Piece.gain, leavesValue]
    rw [gains]
    exact Rises.refl
  | [stmt], located, positive, base => by
    have ran := rises_stmt permits stmt (located.child _ List.mem_cons_self) positive base
    simp only [stmtsInstrs, List.append_nil]
    simpa [Piece.gain, leavesValue] using ran
  | first :: second :: rest, located, positive, base => by
    have gains : Piece.gain (.stmt (tail && (second :: rest).isEmpty) first) = 0 := by
      simp [Piece.gain]
    have ran : Rises code (paramsOf arities) calls level start _ 0 :=
      gains ▸ rises_stmt permits first (located.child _ List.mem_cons_self) positive base
    have later := ran.seq (by decide) (rises_stmts permits (second :: rest)
      (located.child _ (List.mem_cons_of_mem _ List.mem_cons_self)) (by omega)
      (ran.gain.trans (by omega)))
    rw [Int.zero_add] at later
    rw [stmtsInstrs, List.length_append, ← Nat.add_assoc]
    exact later

end

/-- A located piece raises the stack by its gain. -/
theorem Located.rises (permits : Permits rule context calls) {start : Nat} : (piece : Piece) →
    Located code arities context naming rule start piece → 0 < start →
    Rises code (paramsOf arities) calls (depthAt code (paramsOf arities) start) start
      (start + (piece.instrs context naming).length) piece.gain
  | .value expr, located, _ => rises_value permits expr located
  | .args exprs, located, _ => rises_args permits exprs located
  | .place expr, located, _ => rises_place permits expr located
  | .stmt _ own, located, positive => rises_stmt permits own located positive rfl
  | .stmts _ body, located, positive => rises_stmts permits body located positive rfl

end Statements

section Functions

variable {context : Context} {frame : Frame} {body : List Stmt} {rule : Rule} {scope : Scope}

/-- The arities of the calls in the code of a function. -/
def functionArities (context : Context) (naming : Naming) (frame : Frame) (body : List Stmt) :
    List Nat :=
  [0, 0, 0] ++ stmtsArities (context.enter frame) naming true body

/-- The parts of the code of a function. -/
theorem functionInstrs_lies (context : Context) (naming : Naming) (frame : Frame)
    (body : List Stmt) :
    Lies (functionInstrs context naming frame body) 0
        [.label frame.name, .push (-frame.localsSize), .popn] ∧
      Lies (functionInstrs context naming frame body) 3
        (stmtsInstrs (context.enter frame) naming true body) ∧
      Lies (functionInstrs context naming frame body)
        (3 + (stmtsInstrs (context.enter frame) naming true body).length)
        ((if leavesValue body then [] else [.push 0]) ++
          [.push (frame.parsSize - 4), .retn (some frame.name)]) := by
  have whole := lies_append_right [] (functionInstrs context naming frame body)
  rw [List.nil_append, functionInstrs, List.append_assoc, lies_append, lies_append] at whole
  obtain ⟨⟨head, statements⟩, tail⟩ := whole
  rw [functionInstrs, List.append_assoc]
  refine ⟨head, statements, ?_⟩
  rw [List.length_append, List.length_nil, Nat.zero_add] at tail
  exact tail

/-- The body of a function is located behind its prologue. -/
theorem located_body (naming : Naming)
    (emits : Emits (emitStmts (context.enter frame) true body))
    (obey : StmtsObey rule scope body) :
    Located (functionInstrs context naming frame body) (functionArities context naming frame body)
      (context.enter frame) naming rule 3 (.stmts true body) :=
  ⟨emits, ⟨(functionInstrs_lies context naming frame body).2.1, lies_append_right [0, 0, 0] _⟩,
    scope, obey⟩

/-- What making room for a number of words of variables does to the stack. If the number is
negative, it takes words away. -/
theorem effect_room (words : Int) :
    Instr.effect (some (.push (-(4 * words)))) 0 .popn =
      if 0 ≤ words then ⟨1, words⟩ else ⟨1 - words, 0⟩ := by
  simp only [Instr.effect]
  by_cases positive : 0 < words
  · rw [if_pos (by omega), if_pos (by omega)]
    congr 1
    omega
  · rw [if_neg (by omega)]
    by_cases zero : 0 ≤ words
    · rw [if_pos zero]
      congr 1 <;> omega
    · rw [if_neg zero]
      congr 1
      omega

section Levels

variable (naming : Naming) {words : Int} (sized : frame.localsSize = 4 * words)

include sized

/-- The depth at which the body of a function starts is that of its variables. -/
theorem depthAt_body (params : Nat → Nat) :
    depthAt (functionInstrs context naming frame body) params 3 = words := by
  obtain ⟨⟨labelled, room, shift, -⟩, -⟩ := functionInstrs_lies context naming frame body
  rw [sized] at room
  have pushed : depthAt (functionInstrs context naming frame body) params 2 = 1 := by
    rw [depthAt, depthAt_one labelled, effectAt_of_some room]
    rfl
  have effect : effectAt (functionInstrs context naming frame body) params 2 =
      if 0 ≤ words then ⟨1, words⟩ else ⟨1 - words, 0⟩ := by
    rw [effectAt_of_some shift, previous?, room, ← effect_room]
    rfl
  rw [depthAt, pushed, effect]
  split <;> dsimp only <;> omega

variable {calls : Option String → Nat → Prop} (permits : Permits rule (context.enter frame) calls)
  (emits : Emits (emitStmts (context.enter frame) true body)) (obey : StmtsObey rule scope body)

include permits emits obey

/-- The body of a function with what follows it starts and ends on the level of its variables. -/
theorem rises_body :
    Rises (functionInstrs context naming frame body)
      (paramsOf (functionArities context naming frame body)) calls words 3
      (functionInstrs context naming frame body).length 0 := by
  obtain ⟨-, -, epilogue⟩ := functionInstrs_lies context naming frame body
  have first := @depthAt_body context frame body naming words sized
    (paramsOf (functionArities context naming frame body))
  have ran := rises_stmts permits body (located_body naming emits obey) (by decide) first
  have length : (functionInstrs context naming frame body).length =
      3 + (stmtsInstrs (context.enter frame) naming true body).length +
        (if leavesValue body then ([] : List Instr) else [.push 0]).length + 1 + 1 := by
    rw [functionInstrs, List.length_append, List.length_append, List.length_append]
    rfl
  rw [length]
  cases leaves : leavesValue body with
  | true =>
    simp only [leaves, if_true] at epilogue ⊢
    rw [Piece.gain, leaves] at ran
    exact ran.finish (by decide) (by omega) epilogue.1 epilogue.2.1
  | false =>
    simp only [leaves] at epilogue ⊢
    rw [Piece.gain, leaves] at ran
    have valued : Rises _ _ calls words 3 _ (0 + 1) :=
      ran.plain epilogue.1 rfl rfl (by simp) (by simp)
    exact valued.finish (by decide) (by omega) epilogue.2.1 epilogue.2.2.1

/-- The code of a function behind its label is settled on the level of its variables. -/
theorem settled_function {position : Nat} {instr : Instr} (positive : 0 < position)
    (here : (functionInstrs context naming frame body)[position]? = some instr) :
    Settled (functionInstrs context naming frame body)
      (paramsOf (functionArities context naming frame body)) calls words position := by
  obtain ⟨⟨-, room, shift, -⟩, -⟩ := functionInstrs_lies context naming frame body
  rcases Nat.lt_or_ge position 3 with early | late
  · obtain rfl | rfl : position = 1 ∨ position = 2 := by omega
    · have counted : Rises (functionInstrs context naming frame body)
          (paramsOf (functionArities context naming frame body)) calls words 1 2 1 :=
        Rises.refl.plain room rfl rfl (Int.le_refl 0) rfl
      exact counted.settled (Nat.le_refl 1) (by decide)
    · exact Rises.settled_shift (by omega) room shift
  · exact (rises_body naming sized permits emits obey).settled late
      (List.getElem?_eq_some_iff.mp here).1

/-- No instruction of a function takes more than there is, unless its variables take a negative
number of bytes. -/
theorem enough_function (nonneg : 0 ≤ words) {position : Nat}
    (inside : position < (functionInstrs context naming frame body).length) :
    (effectAt (functionInstrs context naming frame body)
        (paramsOf (functionArities context naming frame body)) position).pops ≤
      depthAt (functionInstrs context naming frame body)
        (paramsOf (functionArities context naming frame body)) position := by
  obtain ⟨⟨labelled, room, shift, -⟩, -⟩ := functionInstrs_lies context naming frame body
  rw [sized] at room
  rcases Nat.eq_zero_or_pos position with rfl | positive
  · rw [effectAt_of_some labelled]
    exact Int.le_refl 0
  · have ready : Rises (functionInstrs context naming frame body)
        (paramsOf (functionArities context naming frame body)) calls words 1 3 words :=
      Rises.refl.shift (Int.le_refl 0) (by omega) room shift
        ((effect_room words).trans (if_pos nonneg)) (by decide) (by omega)
    have reached := (ready.seq nonneg (rises_body naming sized permits emits obey)).floor positive
      inside
    rwa [depthAt_one labelled, Int.zero_add] at reached

end Levels

end Functions

/-- The code of a piece raises the depth by its gain and never reaches below the
depth where it starts. -/
structure Piece.Balances (code : List Instr) (params : Nat → Nat) (depth : Nat → Int)
    (context : Context) (naming : Naming) (start : Nat) (piece : Piece) : Prop where
  lies : Lies code start (piece.instrs context naming)
  gain : depth (start + (piece.instrs context naming).length) = depth start + piece.gain
  floor {position : Nat} : start ≤ position →
    position < start + (piece.instrs context naming).length →
    depth start + (effectAt code params position).pops ≤ depth position

/-- The depths of the code of a function, with the number of parameters of every
function that it calls. -/
structure FunctionBalance (program : Program) (layout : Layout) (function : FunDef)
    (code : List Instr) where
  /-- Where in the program the function has been emitted. -/
  context : Context
  sameProgram : context.program = program
  sameLayout : context.layout = layout
  params : Nat → Nat
  depth : Nat → Int
  emitted : code = functionInstrs context (.ofProgram program layout)
    (layout.frameOf function.id) function.body
  balanced : Balanced code params depth
  /-- No instruction takes more than there is, unless the variables take a negative number of
  bytes. -/
  enough {position : Nat} : 0 ≤ (layout.frameOf function.id).localsSize → position < code.length →
    (effectAt code params position).pops ≤ depth position
  /-- A call is to a function of the program with that number of parameters. -/
  calls {position : Nat} {callee : Option String} : code[position]? = some (.call callee) →
    ∃ target ∈ program.functions, callee = some (layout.frameOf target.id).name ∧
      params position = target.params.length
  /-- The expressions and statements of the body, which starts behind the label
  and the two instructions that make room for the variables. -/
  pieces {offset : Nat} {piece : Piece} :
    Piece.Within (context.enter (layout.frameOf function.id)) (.ofProgram program layout)
      (.stmts true function.body) offset piece →
    piece.Balances code params depth (context.enter (layout.frameOf function.id))
      (.ofProgram program layout) (3 + offset)
  /-- The result and the size of the parameters lie above the variables when the
  function returns. -/
  returns {position : Nat} {name : Option String} : code[position]? = some (.retn name) →
    depth position = (layout.frameOf function.id).localsSize / 4 + 2

/-- A call that agrees with its function in the number of arguments may be made. -/
theorem permits_matched {program : Program} {context : Context}
    (sameProgram : context.program = program) :
    Permits (.matched program) context fun callee count =>
      ∃ target ∈ program.functions, callee = some (context.layout.frameOf target.id).name ∧
        count = target.params.length := by
  rintro scope id name args callee ⟨target, inside, linked, same⟩ framed
  refine ⟨target, inside, ?_, same⟩
  rw [Context.calleeOf?, sameProgram, linked] at framed
  rw [Layout.frameOf_eq framed]

/-- The code of a function whose calls agree with their functions is balanced. -/
theorem nonempty_functionBalance {program : Program} {context : Context} {function : FunDef}
    {scope : Scope} {words : Int} (sameProgram : context.program = program)
    (emits : Emits (emitStmts (context.enter (context.layout.frameOf function.id)) true
      function.body))
    (obey : StmtsObey (.matched program) scope function.body)
    (sized : (context.layout.frameOf function.id).localsSize = 4 * words) :
    Nonempty (FunctionBalance program context.layout function
      (functionInstrs context (.ofProgram program context.layout)
        (context.layout.frameOf function.id) function.body)) := by
  have permits : Permits (.matched program) (context.enter (context.layout.frameOf function.id)) _ :=
    permits_matched sameProgram
  have located := located_body (.ofProgram program context.layout) emits obey
  have settled {position : Nat} {instr : Instr} :=
    @settled_function _ _ _ _ _ (.ofProgram program context.layout) _ sized _ permits emits obey
      position instr
  obtain ⟨⟨labelled, -⟩, -⟩ := functionInstrs_lies context (.ofProgram program context.layout)
    (context.layout.frameOf function.id) function.body
  have behind {position : Nat} {instr : Instr}
      (here : (functionInstrs context (.ofProgram program context.layout)
        (context.layout.frameOf function.id) function.body)[position]? = some instr)
      (other : instr ≠ .label (context.layout.frameOf function.id).name) :=
    settled (Nat.pos_of_ne_zero fun first => other (by
      rw [first] at here
      exact Option.some.inj (here.symm.trans labelled))) here
  exact ⟨{
    context
    sameProgram
    sameLayout := rfl
    params := _
    depth := _
    emitted := rfl
    balanced := balanced_of_settled labelled settled
    enough := fun nonneg => enough_function _ sized permits emits obey (by omega)
    calls := fun here => (behind here nofun).called here
    pieces := fun within =>
      have inner := located.within within
      have balances := Located.rises permits _ inner (by omega)
      ⟨inner.carries.lies, balances.gain, balances.floor⟩
    returns := fun here => by
      rw [(behind here nofun).high here rfl, sized]
      omega }⟩

end Emission

open Emission

/-- The code of every function of a program is balanced: along every step that it
can take, a jump included, the depth of the stack changes by the effect of the
instruction. The branches of a conditional thus meet at one depth, and a loop comes
back to the depth of its head. The code of an expression or a place raises the depth
by one, and that of a statement leaves it, unless the value of the function stays
there. -/
theorem stack_balanced {program : Program} {image : Image} (distinct : program.Distinct)
    (matched : program.Obeys (.matched program)) (compiled : program.compile = .ok image) :
    ∃ layout, Layout.ofProgram program = .ok layout ∧
      ∀ function ∈ program.functions, function.isExternal = false →
        ∃ own, image.nodeCode[function.id]? = some own ∧
          Nonempty (FunctionBalance program layout function own.items) := by
  obtain ⟨layout, laidOut, assembled⟩ := Program.compile_eq_ok.mp compiled
  refine ⟨layout, laidOut, fun function inside hasBody => ?_⟩
  obtain ⟨outer, own, sameProgram, rfl, emits, held, items⟩ :=
    exists_functionCode distinct assembled inside hasBody
  obtain ⟨globals, ready, after, -, laid⟩ := Layout.topLaid_of_ofProgram distinct laidOut
  obtain ⟨_, _, _, _, laidOwn⟩ := laid.inside inside
  obtain ⟨words, sized⟩ := laidOwn.words
  obtain ⟨scope, obeys⟩ := DefsObey.inside program.defs matched inside
  obtain ⟨-, obeyBody⟩ := FunDef.obeys_iff.mp obeys
  exact ⟨own, held, items ▸ nonempty_functionBalance sameProgram emits obeyBody sized⟩

/-- The entry point of the sample is balanced. -/
theorem stack_balanced_sample :
    Program.sample.Distinct ∧ Program.sample.Obeys (.matched .sample) ∧
      ∃ image layout function own, Program.sample.compile = .ok image ∧
        function ∈ Program.sample.functions ∧ function.isExternal = false ∧
        image.nodeCode[function.id]? = some own ∧
        Nonempty (FunctionBalance .sample layout function own.items) := by
  have distinct : Program.sample.Distinct := by decide +kernel
  have matched : Program.sample.Obeys (.matched .sample) := by decide +kernel
  have hasFunction : ∃ function ∈ Program.sample.functions, function.isExternal = false := by
    decide +kernel
  obtain ⟨function, inside, hasBody⟩ := hasFunction
  have succeeds : Program.sample.compile.toOption.isSome = true := by decide +kernel
  cases compiled : Program.sample.compile with
  | error cause =>
    rw [compiled] at succeeds
    cases succeeds
  | ok image =>
    obtain ⟨layout, -, balanced⟩ := stack_balanced distinct matched compiled
    obtain ⟨own, held, balance⟩ := balanced function inside hasBody
    exact ⟨distinct, matched, image, layout, function, own, rfl, inside, hasBody, held, balance⟩

end ScopeStack
