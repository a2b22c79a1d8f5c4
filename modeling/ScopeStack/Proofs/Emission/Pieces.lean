import ScopeStack.Proofs.Emission.Visits

/-!
# The pieces of a function's code

The code of an expression or a statement is a consecutive part of the code of its
function. A `Piece` is such a part; its children are the parts that it is put
together from, each with its distance from the start. `Within` follows children
to any depth.

`Located` says that the code of a piece lies at a position, together with what is
known of the piece. It goes over from a piece to its children, and so to every
piece within it.
-/

namespace ScopeStack.Emission

/-- A list lies in another one from a position on. -/
def Lies {α : Type} (whole : List α) (start : Nat) : List α → Prop
  | [] => True
  | item :: rest => whole[start]? = some item ∧ Lies whole (start + 1) rest

/-- Two pieces lie somewhere if the second lies where the first ends. -/
theorem lies_append {α : Type} {whole : List α} {start : Nat} {first second : List α} :
    Lies whole start (first ++ second) ↔
      Lies whole start first ∧ Lies whole (start + first.length) second := by
  induction first generalizing start with
  | nil => simp [Lies]
  | cons item rest hypothesis =>
    rw [List.cons_append, Lies, hypothesis, Lies, List.length_cons, and_assoc,
      Nat.add_assoc start 1, Nat.add_comm 1]

/-- The second of two pieces lies behind the first. -/
theorem lies_append_right {α : Type} (first second : List α) :
    Lies (first ++ second) first.length second := by
  induction second generalizing first with
  | nil => exact trivial
  | cons item rest hypothesis =>
    refine ⟨by simp, ?_⟩
    have later := hypothesis (first ++ [item])
    rwa [List.append_assoc, List.length_append] at later

/-- A part of a function with code of its own. -/
inductive Piece where
  /-- The value of an expression. -/
  | value (expr : Expr)
  /-- The values of arguments. -/
  | args (exprs : List Expr)
  /-- The address of a place. -/
  | place (expr : Expr)
  /-- A statement, which is or is not the last of its function. -/
  | stmt (tail : Bool) (stmt : Stmt)
  /-- Statements, which are or are not the last of their function. -/
  | stmts (tail : Bool) (body : List Stmt)

namespace Piece

variable (context : Context) (naming : Naming)

/-- The code of a piece. -/
def instrs : Piece → List Instr
  | .value expr => valueInstrs context naming expr
  | .args exprs => argInstrs context naming exprs
  | .place expr => placeInstrs context naming expr
  | .stmt tail own => stmtInstrs context naming tail own
  | .stmts tail body => stmtsInstrs context naming tail body

/-- The step that emits a piece. -/
def emit : Piece → Emit Code
  | .value expr => emitValue context expr
  | .args exprs => emitArgs context exprs
  | .place expr => emitPlace context expr
  | .stmt tail own => emitStmt context tail own
  | .stmts tail body => emitStmts context tail body

/-- All nodes of a piece obey a rule. -/
def Obeys (rule : Rule) (scope : Scope) : Piece → Prop
  | .value expr => expr.Obeys rule scope
  | .args exprs => ExprsObey rule scope exprs
  | .place expr => expr.Obeys rule scope
  | .stmt _ own => own.Obeys rule scope
  | .stmts _ body => StmtsObey rule scope body

/-- The pieces that a piece is put together from, each with its distance from the
start of the piece. -/
def children : Piece → List (Nat × Piece)
  | .value (.atom _ _) => []
  | .value (.var id name) => [(0, .place (.var id name))]
  | .value (.call _ _ given) => [(0, .args given)]
  | .value (.unary _ .addressOf operand) => [(0, .place operand)]
  | .value (.unary _ _ operand) => [(0, .value operand)]
  | .value (.binary _ _ first second) =>
    [(0, .value first), ((valueInstrs context naming first).length, .value second)]
  | .args [] => []
  | .args (arg :: rest) =>
    [(0, .args rest), ((argInstrs context naming rest).length, .value arg)]
  | .place (.unary _ .valueAt pointer) => [(0, .value pointer)]
  | .place _ => []
  | .stmt _ (.expr _ own) => [(0, .value own)]
  | .stmt _ (.assign _ target source) =>
    [(0, .value source), ((valueInstrs context naming source).length, .place target)]
  | .stmt _ (.cond _ test yes no) =>
    let testSize := (valueInstrs context naming test).length
    [(0, .value test), (testSize + 4, .stmts false yes),
      (testSize + 4 + (stmtsInstrs context naming false yes).length + 3, .stmts false no)]
  | .stmt _ (.loop _ test body) =>
    [(1, .value test), (1 + (valueInstrs context naming test).length + 4, .stmts false body)]
  | .stmt tail (.block _ defs body) =>
    [((localsInstrs context naming defs).length, .stmts tail body)]
  | .stmts _ [] => []
  | .stmts tail (first :: rest) =>
    let last := tail && rest.isEmpty
    [(0, .stmt last first), ((stmtInstrs context naming last first).length, .stmts tail rest)]

/-- A piece stands inside another one, at a distance from its start. -/
inductive Within (outer : Piece) : Nat → Piece → Prop
  | refl : Within outer 0 outer
  | child {offset further : Nat} {piece inner : Piece} (within : Within outer offset piece)
      (member : (further, inner) ∈ piece.children context naming) :
      Within outer (offset + further) inner

end Piece

/-- For each instruction, the number of arguments of the call that it makes when
all calls among the instructions have `count` arguments. -/
def aritiesOf (count : Nat) (instrs : List Instr) : List Nat :=
  instrs.map fun
    | .call _ => count
    | _ => 0

/-- Every instruction has an arity. -/
@[simp] theorem length_aritiesOf (count : Nat) (instrs : List Instr) :
    (aritiesOf count instrs).length = instrs.length := List.length_map _

section Arities

variable (context : Context) (naming : Naming)

mutual

/-- For each instruction of the code of an expression, the number of arguments of
the call that it makes. -/
def valueArities : Expr → List Nat
  | .atom id atom => aritiesOf 0 (atomInstrs naming id atom)
  | .var id _ => aritiesOf 0 (variableInstrs context id) ++ [0]
  | .call id _ args => argArities args ++ aritiesOf args.length (calleeInstrs context id)
  | .unary _ .plus operand => valueArities operand
  | .unary _ .addressOf operand => aritiesOf 0 (variableInstrs context operand.id)
  | .unary _ .not operand => valueArities operand ++ [0]
  | .unary _ .minus operand => valueArities operand ++ [0]
  | .unary _ .valueAt operand => valueArities operand ++ [0]
  | .binary _ _ first second => valueArities first ++ valueArities second ++ [0]

/-- The same for arguments. -/
def argArities : List Expr → List Nat
  | [] => []
  | arg :: rest => argArities rest ++ valueArities arg

end

/-- The same for a place. -/
def placeArities : Expr → List Nat
  | .unary _ .valueAt pointer => valueArities context naming pointer
  | place => aritiesOf 0 (variableInstrs context place.id)

mutual

/-- The same for a statement. -/
def stmtArities (tail : Bool) : Stmt → List Nat
  | .expr _ value => valueArities context naming value ++ if tail then [] else [0, 0]
  | .assign _ target source =>
    valueArities context naming source ++ placeArities context naming target ++ [0]
  | .cond _ test yes no =>
    valueArities context naming test ++ [0, 0, 0, 0] ++ stmtsArities false yes ++ [0, 0, 0] ++
      stmtsArities false no ++ [0]
  | .loop _ test body =>
    [0] ++ valueArities context naming test ++ [0, 0, 0, 0] ++ stmtsArities false body ++ [0, 0, 0]
  | .block _ defs body =>
    aritiesOf 0 (localsInstrs context naming defs) ++ stmtsArities tail body

/-- The same for statements. -/
def stmtsArities (tail : Bool) : List Stmt → List Nat
  | [] => []
  | stmt :: rest => stmtArities (tail && rest.isEmpty) stmt ++ stmtsArities tail rest

end

/-- The same for a piece. -/
def Piece.arities : Piece → List Nat
  | .value expr => valueArities context naming expr
  | .args exprs => argArities context naming exprs
  | .place expr => placeArities context naming expr
  | .stmt tail own => stmtArities context naming tail own
  | .stmts tail body => stmtsArities context naming tail body

variable {context naming}

mutual

/-- There is an arity for every instruction of an expression. -/
@[simp] theorem length_valueArities : (expr : Expr) →
    (valueArities context naming expr).length = (valueInstrs context naming expr).length
  | .atom _ _ => length_aritiesOf _ _
  | .var _ _ => by simp [valueArities, valueInstrs]
  | .call _ _ args => by simp [valueArities, valueInstrs, length_argArities args]
  | .unary _ .plus operand => length_valueArities operand
  | .unary _ .addressOf _ => length_aritiesOf _ _
  | .unary _ .not operand => by simp [valueArities, valueInstrs, length_valueArities operand]
  | .unary _ .minus operand => by simp [valueArities, valueInstrs, length_valueArities operand]
  | .unary _ .valueAt operand => by simp [valueArities, valueInstrs, length_valueArities operand]
  | .binary _ _ first second => by
    simp [valueArities, valueInstrs, length_valueArities first, length_valueArities second]

/-- There is an arity for every instruction of arguments. -/
@[simp] theorem length_argArities : (args : List Expr) →
    (argArities context naming args).length = (argInstrs context naming args).length
  | [] => rfl
  | arg :: rest => by
    simp [argArities, argInstrs, length_argArities rest, length_valueArities arg]

end

/-- There is an arity for every instruction of a place. -/
@[simp] theorem length_placeArities (place : Expr) :
    (placeArities context naming place).length = (placeInstrs context naming place).length := by
  fun_cases placeArities context naming place with
  | case1 id pointer => exact length_valueArities pointer
  | case2 place notPointer =>
    rw [placeInstrs.eq_2 _ _ _ notPointer, length_aritiesOf]

mutual

/-- There is an arity for every instruction of a statement. -/
@[simp] theorem length_stmtArities {tail : Bool} : (stmt : Stmt) →
    (stmtArities context naming tail stmt).length = (stmtInstrs context naming tail stmt).length
  | .expr _ _ => by cases tail <;> simp [stmtArities, stmtInstrs]
  | .assign _ _ _ => by simp [stmtArities, stmtInstrs]
  | .cond _ _ yes no => by
    simp [stmtArities, stmtInstrs, length_stmtsArities yes, length_stmtsArities no]
  | .loop _ _ body => by simp [stmtArities, stmtInstrs, length_stmtsArities body]
  | .block _ _ body => by simp [stmtArities, stmtInstrs, length_stmtsArities body]

/-- There is an arity for every instruction of statements. -/
@[simp] theorem length_stmtsArities {tail : Bool} : (stmts : List Stmt) →
    (stmtsArities context naming tail stmts).length = (stmtsInstrs context naming tail stmts).length
  | [] => rfl
  | stmt :: rest => by
    simp [stmtsArities, stmtsInstrs, length_stmtArities stmt, length_stmtsArities rest]

end

end Arities

/-- The first part of a sequence that can be emitted can be emitted, and so can
what follows. -/
theorem Emits.bind {α β : Type} {first : Emit α} {second : α → Emit β}
    (emits : Emits (first >>= second)) : Emits first ∧ ∃ value, Emits (second value) := by
  obtain ⟨before, result, ran⟩ := emits
  obtain ⟨value, middle, ranFirst, ranSecond⟩ := Stateful.run_bind_eq_ok.mp ran
  exact ⟨⟨before, _, ranFirst⟩, value, middle, result, ranSecond⟩

/-- A computation that starts with an attempt emits code if the attempt succeeds and the rest
does. -/
theorem Emits.lift {α β : Type} {attempt : Except EmissionError α} {second : α → Emit β}
    (emits : Emits (liftM attempt >>= second)) :
    ∃ value, attempt = .ok value ∧ Emits (second value) := by
  obtain ⟨before, result, ran⟩ := emits
  obtain ⟨value, middle, lifted, ranSecond⟩ := Stateful.run_bind_eq_ok.mp ran
  obtain ⟨same, found, pair⟩ := Stateful.run_lift_eq_ok.mp lifted
  cases pair
  exact ⟨_, found, _, result, ranSecond⟩

/-- A computation that fails emits no code. -/
theorem not_emits_throw {α : Type} {cause : EmissionError} :
    ¬Emits (throw cause : Emit α) := fun ⟨_, _, ran⟩ => Stateful.run_throw_eq_ok.mp ran

/-- Instructions lie in code and their arities in a list beside it. -/
structure Carries (code : List Instr) (arities : List Nat) (start : Nat) (instrs : List Instr)
    (counts : List Nat) : Prop where
  lies : Lies code start instrs
  counted : Lies arities start counts

section Carries

variable {code : List Instr} {arities : List Nat} {start : Nat} {first second : List Instr}
  {counts more : List Nat}

/-- The first part of a piece is carried where the piece is. -/
theorem Carries.left (carries : Carries code arities start (first ++ second) (counts ++ more)) :
    Carries code arities start first counts :=
  ⟨(lies_append.mp carries.lies).1, (lies_append.mp carries.counted).1⟩

/-- The second part of a piece is carried where the first ends. -/
theorem Carries.right (carries : Carries code arities start (first ++ second) (counts ++ more))
    (same : counts.length = first.length) {size : Nat} (sized : size = first.length) :
    Carries code arities (start + size) second more := by
  subst sized
  exact ⟨(lies_append.mp carries.lies).2, same ▸ (lies_append.mp carries.counted).2⟩

end Carries

/-- The code of a piece lies at a position, with the arities of its calls; the
piece has been emitted and obeys a rule. -/
structure Located (code : List Instr) (arities : List Nat) (context : Context) (naming : Naming)
    (rule : Rule) (start : Nat) (piece : Piece) : Prop where
  emits : Emits (piece.emit context)
  carries : Carries code arities start (piece.instrs context naming) (piece.arities context naming)
  obeys : ∃ scope, piece.Obeys rule scope

namespace Located

variable {code : List Instr} {arities : List Nat} {context : Context} {naming : Naming}
  {rule : Rule} {start : Nat}

/-- The operand of a unary operator is located where the operator is. -/
theorem unary {id : NodeId} {op : UnaryOp} {operand : Expr}
    (located : Located code arities context naming rule start (.value (.unary id op operand)))
    (plain : op ≠ .addressOf) :
    Located code arities context naming rule start (.value operand) := by
  obtain ⟨emits, carries, scope, obeys⟩ := located
  simp only [Piece.emit, emitValue] at emits
  refine ⟨?_, ?_, scope, obeys.2⟩
  · cases op with
    | addressOf => exact absurd rfl plain
    | _ => exact emits.bind.1
  · cases op with
    | addressOf => exact absurd rfl plain
    | plus => exact carries
    | _ => exact carries.left

/-- The child of a piece is located where its parent says. -/
theorem child {offset : Nat} {inner : Piece} : (piece : Piece) →
    Located code arities context naming rule start piece →
    (offset, inner) ∈ piece.children context naming →
    Located code arities context naming rule (start + offset) inner
  | .value (.atom _ _), _, member => nomatch member
  | .value (.var id name), ⟨emits, carries, obeys⟩, member => by
    cases List.mem_singleton.mp member
    exact ⟨emits.bind.1, carries.left, obeys⟩
  | .value (.call id _ args), ⟨emits, carries, scope, obeys⟩, member => by
    cases List.mem_singleton.mp member
    obtain ⟨target, -, emits⟩ := emits.lift
    obtain ⟨frame, -, emits⟩ := emits.lift
    exact ⟨emits.bind.1, carries.left, scope, obeys.2⟩
  | .value (.unary _ .addressOf operand), ⟨emits, carries, scope, obeys⟩, member => by
    cases List.mem_singleton.mp member
    cases operand with
    | var use name => exact ⟨emits.bind.1, carries, scope, obeys.2⟩
    | _ => exact absurd emits not_emits_throw
  | .value (.unary _ .plus operand), located, member => by
    cases List.mem_singleton.mp member
    exact located.unary nofun
  | .value (.unary _ .not operand), located, member => by
    cases List.mem_singleton.mp member
    exact located.unary nofun
  | .value (.unary _ .minus operand), located, member => by
    cases List.mem_singleton.mp member
    exact located.unary nofun
  | .value (.unary _ .valueAt operand), located, member => by
    cases List.mem_singleton.mp member
    exact located.unary nofun
  | .value (.binary _ _ first second), ⟨emits, carries, scope, _, obeysFirst, obeysSecond⟩,
      member => by
    obtain ⟨emitsFirst, _, emits⟩ := emits.bind
    rcases List.mem_cons.mp member with same | member
    · cases same
      exact ⟨emitsFirst, carries.left.left, scope, obeysFirst⟩
    · cases List.mem_singleton.mp member
      exact ⟨emits.bind.1, carries.left.right (length_valueArities first) rfl, scope, obeysSecond⟩
  | .args [], _, member => nomatch member
  | .args (arg :: rest), ⟨emits, carries, scope, obeysArg, obeyRest⟩, member => by
    obtain ⟨emitsRest, _, emits⟩ := emits.bind
    rcases List.mem_cons.mp member with same | member
    · cases same
      exact ⟨emitsRest, carries.left, scope, obeyRest⟩
    · cases List.mem_singleton.mp member
      exact ⟨emits.bind.1, carries.right (length_argArities rest) rfl, scope, obeysArg⟩
  | .place (.unary id .valueAt pointer), ⟨emits, carries, scope, obeys⟩, member => by
    cases List.mem_singleton.mp member
    simp only [Piece.emit, emitPlace] at emits
    split at emits
    · exact absurd emits.bind.1 not_emits_throw
    · exact ⟨emits.bind.1, carries, scope, obeys.2⟩
  | .stmt tail (.expr _ own), ⟨emits, carries, scope, obeys⟩, member => by
    cases List.mem_singleton.mp member
    exact ⟨emits.bind.1, carries.left, scope, obeys.2⟩
  | .stmt _ (.assign _ target source), ⟨emits, carries, scope, _, obeysTarget, obeysSource⟩,
      member => by
    obtain ⟨emitsSource, _, emits⟩ := emits.bind
    rcases List.mem_cons.mp member with same | member
    · cases same
      exact ⟨emitsSource, carries.left.left, scope, obeysSource⟩
    · cases List.mem_singleton.mp member
      exact ⟨emits.bind.1, carries.left.right (length_valueArities source) rfl, scope, obeysTarget⟩
  | .stmt _ (.cond _ test yes no), ⟨emits, carries, scope, _, obeysTest, obeyYes, obeyNo⟩,
      member => by
    obtain ⟨-, _, emits⟩ := emits.bind
    obtain ⟨emitsTest, _, emits⟩ := emits.bind
    obtain ⟨emitsYes, _, emits⟩ := emits.bind
    rcases List.mem_cons.mp member with same | member
    · cases same
      exact ⟨emitsTest, carries.left.left.left.left.left, scope, obeysTest⟩
    rcases List.mem_cons.mp member with same | member
    · cases same
      exact ⟨emitsYes, carries.left.left.left.right (by simp) (by simp), scope, obeyYes⟩
    · cases List.mem_singleton.mp member
      exact ⟨emits.bind.1, carries.left.right (by simp) (by simp; omega), scope, obeyNo⟩
  | .stmt _ (.loop _ test body), ⟨emits, carries, scope, _, obeysTest, obeyBody⟩, member => by
    obtain ⟨-, _, emits⟩ := emits.bind
    obtain ⟨emitsTest, _, emits⟩ := emits.bind
    rcases List.mem_cons.mp member with same | member
    · cases same
      exact ⟨emitsTest, carries.left.left.left.right rfl rfl, scope, obeysTest⟩
    · cases List.mem_singleton.mp member
      exact ⟨emits.bind.1, carries.left.right (by simp) (by simp; omega), scope, obeyBody⟩
  | .stmt tail (.block _ defs body), ⟨emits, carries, scope, _, _, obeyBody⟩, member => by
    cases List.mem_singleton.mp member
    obtain ⟨-, _, emits⟩ := emits.bind
    exact ⟨emits.bind.1, carries.right (length_aritiesOf _ _) rfl, .block defs scope, obeyBody⟩
  | .stmts _ [], _, member => nomatch member
  | .stmts tail (first :: rest), ⟨emits, carries, scope, obeysFirst, obeyRest⟩, member => by
    obtain ⟨emitsFirst, _, emits⟩ := emits.bind
    rcases List.mem_cons.mp member with same | member
    · cases same
      exact ⟨emitsFirst, carries.left, scope, obeysFirst⟩
    · cases List.mem_singleton.mp member
      exact ⟨emits.bind.1, carries.right (length_stmtArities first) rfl, scope, obeyRest⟩

/-- What is within a piece is located where the piece says. -/
theorem within {offset : Nat} {piece inner : Piece}
    (located : Located code arities context naming rule start piece)
    (inside : piece.Within context naming offset inner) :
    Located code arities context naming rule (start + offset) inner := by
  induction inside with
  | refl => exact located
  | child _ member hypothesis => exact Nat.add_assoc .. ▸ hypothesis.child _ member

end Located

end ScopeStack.Emission
