import ScopeStack.Proofs.Execution.Store

/-!
# Compiled code does what evaluation does

Code for an expression or a statement is watched together with its evaluation. If
evaluation gives a value, the code leaves it on the stack and memory agrees with the
world; if evaluation stops, the machine stops in the same way. `Site.Yields` says this in
continuation style: whatever is watched holds before the code if it holds after it, for
all that evaluation can lead to.

Evaluation is bounded, and so is the number of steps for which the machine may be
watched. Each call and each round of a loop takes at least one step, so that evaluation
is not exhausted before the steps are.
-/

namespace ScopeStack

open Emission Linkage

/-- The machine may stop where evaluation does, with the same streams. Exhausted
evaluation is of use only if the number of steps matters. -/
def Watch.Accepts {executable : Executable} (watch : Watch executable) : Stop → World → Prop
  | .exit code, world => ∀ state : State, state.input = world.input → state.output = world.output →
    watch.ends (.exited code) state
  | .fault fault, world => ∀ state : State, state.input = world.input →
    state.output = world.output → watch.ends (.faulted fault) state
  | .exhausted, _ => watch.counted
  | .stuck, _ => False

/-- The word at an index. -/
theorem Memory.WordsAt.word {memory : Memory} {address : Int} {words : List Word}
    (held : memory.WordsAt address (words.map Int32.toInt)) {index : Nat} {word : Word}
    (found : words[index]? = some word) : memory.word (address + 4 * index) = word := by
  induction words generalizing address index with
  | nil => cases found
  | cons first rest hypothesis =>
    cases index with
    | zero =>
      cases found
      rw [show address + 4 * ((0 : Nat) : Int) = address by omega, held.1, Word.ofInt_toInt]
    | succ index =>
      rw [← hypothesis held.2 found, show address + 4 * ((index + 1 : Nat) : Int) =
        address + 4 + 4 * (index : Int) by omega]

namespace Site

section Yields

variable {executable : Executable}

/-- What code leaves: words on the stack, and memory that agrees with the world. -/
structure Leaves (executable : Executable) (site : Site) (place : Place) (bytes : Int)
    (words : List Word) (world : World) (sp : Int) (before after : Memory) (ambient : Ambient) :
    Prop where
  stable : site.Stable executable sp before after
  agrees : place.Agrees world after ambient
  length : 4 * (words.length : Int) = bytes
  carried : after.WordsAt (sp - bytes) (words.map Int32.toInt)
  here : site.Here executable (sp - bytes) after ambient

/-- What is watched holds after code that leaves given words. -/
def Resumes (watch : Watch executable) (site : Site) (place : Place) (count : Nat) (stop sp : Int)
    (before : Memory) (bytes : Int) (words : List Word) (world : World) : Prop :=
  ∀ after later, site.Leaves executable place bytes words world sp before after later →
    watch.At count site.live stop site.fp (sp - bytes) after later

/-- Code that does what an evaluation does, and leaves the words of its value. -/
def Yields (watch : Watch executable) (site : Site) (place : Place) (count : Nat) (bytes : Int)
    {α : Type} (words : α → List Word) (eval : Eval α) (start stop : Int) : Prop :=
  ∀ world sp memory ambient, site.Here executable sp memory ambient →
    place.Agrees world memory ambient →
    eval.Meets watch.Accepts
      (fun value => site.Resumes watch place count stop sp memory bytes (words value)) world →
    watch.At count site.live start site.fp sp memory ambient

variable {site : Site} {place : Place} {bytes sp : Int} {words : List Word} {world : World}
  {before middle after : Memory} {ambient : Ambient}

/-- Code that does nothing leaves nothing behind. -/
theorem Leaves.nothing (here : site.Here executable sp before ambient)
    (agrees : place.Agrees world before ambient) :
    site.Leaves executable place 0 [] world sp before before ambient := by
  refine ⟨.refl _ _, agrees, rfl, trivial, ?_⟩
  rwa [Int.sub_zero]

/-- The word on top of the stack. -/
theorem Leaves.top {word : Word}
    (leaves : site.Leaves executable place 4 [word] world sp before after ambient) :
    after.word (sp - 4) = word := by
  rw [leaves.carried.1, Word.ofInt_toInt]

/-- Changing the stack above which the code has started. -/
theorem Leaves.quiet {result : List Word} {size : Int}
    (leaves : site.Leaves executable place bytes words world sp before middle ambient)
    (clear : place.Clear executable site.bottom) (below : sp ≤ site.bottom)
    (quiet : Quiet executable sp middle after) (length : 4 * (result.length : Int) = size)
    (carried : after.WordsAt (sp - size) (result.map Int32.toInt))
    (here : site.Here executable (sp - size) after ambient) :
    site.Leaves executable place size result world sp before after ambient :=
  ⟨leaves.stable.trans (stable_of_quiet quiet), leaves.agrees.quiet clear below quiet, length,
    carried, here⟩

/-- Replacing what code has left by one word. -/
theorem Leaves.replaced {word : Word}
    (leaves : site.Leaves executable place bytes words world sp before middle ambient)
    (clear : place.Clear executable site.bottom) (below : sp ≤ site.bottom)
    (quiet : Quiet executable sp middle after) (top : after.word (sp - 4) = word)
    (here : site.Here executable (sp - 4) after ambient) :
    site.Leaves executable place 4 [word] world sp before after ambient := by
  refine leaves.quiet clear below quiet rfl ⟨?_, trivial⟩ here
  rw [top, Word.ofInt_toInt]

/-- Giving up what code has left. -/
theorem Leaves.dropped
    (leaves : site.Leaves executable place bytes words world sp before middle ambient)
    (clear : place.Clear executable site.bottom) (below : sp ≤ site.bottom)
    (quiet : Quiet executable sp middle after) (here : site.Here executable sp after ambient) :
    site.Leaves executable place 0 [] world sp before after ambient :=
  leaves.quiet clear below quiet rfl trivial (by rwa [Int.sub_zero])

/-- What one piece of code and then another leave. -/
theorem Leaves.trans {program : Program} {layout : Layout} {link : Linkage} {more : Int}
    {added : List Word} {last : World} {later : Ambient}
    (grounded : site.Grounded executable program layout link) (below : sp ≤ site.bottom)
    (first : site.Leaves executable place bytes words world sp before middle ambient)
    (second : site.Leaves executable place more added last (sp - bytes) middle after later) :
    site.Leaves executable place (bytes + more) (added ++ words) last sp before after later := by
  have heap := first.here.stacked.heap
  have data := first.here.data
  have length := first.length
  have moreLength := second.length
  constructor
  case stable => exact first.stable.trans (second.stable.mono (by omega))
  case agrees => exact second.agrees
  case length =>
    rw [List.length_append, Int.natCast_add]
    omega
  case carried =>
    rw [List.map_append, Memory.wordsAt_append]
    refine ⟨?_, ?_⟩
    · rw [show sp - (bytes + more) = sp - bytes - more by omega]
      exact second.carried
    · rw [List.length_map, show sp - (bytes + more) + 4 * (added.length : Int) = sp - bytes by omega]
      refine first.carried.intact second.stable fun index low high => ?_
      rw [List.length_map] at high
      exact ⟨grounded.free index (by omega) (by omega), .inl low⟩
  case here =>
    rw [show sp - (bytes + more) = sp - bytes - more by omega]
    exact second.here

/-- A statement without a value leaves nothing, whether it is the last one or not. -/
theorem Resumes.silent {watch : Watch executable} {count : Nat} {stop : Int} {tail : Bool}
    (resumes : site.Resumes watch place count stop sp before (if tail && false then 4 else 0)
      (if tail then (none : Option Word).toList else []) world)
    (leaves : site.Leaves executable place 0 [] world sp before after ambient) :
    watch.At count site.live stop site.fp sp after ambient := by
  cases tail with
  | true => simpa using resumes after ambient leaves
  | false => simpa using resumes after ambient leaves

/-- Whatever was pushed before is still there. -/
theorem Leaves.mono {start : Memory}
    (leaves : site.Leaves executable place bytes words world sp middle after ambient)
    (stable : site.Stable executable sp start middle) :
    site.Leaves executable place bytes words world sp start after ambient :=
  { leaves with stable := stable.trans leaves.stable }

end Yields

/-- The code at a point runs at a site, in an environment whose variables lie at given
addresses. -/
structure Running (executable : Executable) (program : Program) (layout : Layout) (link : Linkage)
    (watch : Watch executable) (site : Site) (env : Env) (place : Place) : Prop where
  active : site.Active executable program layout (.meaningful program) link watch env.scope
  bound : place.Bound layout link env site.chain
  clear : place.Clear executable site.bottom

/-- Calls do what evaluation does, if this is bounded by a number. -/
def CallsYield (executable : Executable) (program : Program) (layout : Layout) (link : Linkage)
    (watch : Watch executable) (depth : Nat) : Prop :=
  ∀ (count : Nat) (site : Site) (home : Env) (function : FunDef) (outer : List (FunDef × Int))
    (args : List Word) (place : Place) (world : World) (pc base : Int) (memory : Memory)
    (ambient : Ambient),
    (watch.counted → count ≤ depth) → site.Sound executable program layout link watch →
    site.Here executable (base - 4) memory ambient →
    Ready program layout (.meaningful program) link site home.scope function outer base memory →
    place.Bound layout link home outer → place.Clear executable site.bottom →
    place.Agrees world memory ambient → args.length = function.params.length →
    memory.WordsAt (base + 4) (args.map Int32.toInt) →
    site.start ≤ pc ∧ pc < site.stop → link.slots[pc]? = some .call →
    memory.word (base - 4) = Word.ofInt (link.entry function.id) →
    (Eval.invoke program depth function home args).Meets watch.Accepts
      (fun value => site.Resumes watch place count (pc + 1)
        (base + (layout.frameOf function.id).parsSize) memory 4 [value]) world →
    watch.At count site.live pc site.fp (base - 4) memory ambient

section Trees

variable {executable : Executable} {program : Program} {layout : Layout} {link : Linkage}
  {watch : Watch executable} {site : Site} {env : Env} {place : Place} {count depth : Nat}

/-- Evaluation finds a variable where compiled code looks for it. -/
theorem Running.exists_address {id : NodeId} {name : String}
    {next : Nat → World → Prop} {world : World}
    (installed : Installed program layout (.meaningful program) executable link)
    (running : site.Running executable program layout link watch env place)
    (obeys : (Expr.var id name).Obeys (.meaningful program) env.scope)
    (meets : (Eval.locate program env id).Meets watch.Accepts next world) :
    ∃ target location address, program.definition? id = some target ∧
      site.address? program layout link env.scope target = some address ∧
      site.Reaches executable address ∧ (location, address) ∈ place ∧ next location world := by
  obtain ⟨⟨target, -, linked⟩, -⟩ := obeys.1
  rw [Eval.locate, linked, Option.bind_some] at meets
  cases found : env.location? target with
  | none =>
    rw [found] at meets
    exact False.elim meets
  | some location =>
    rw [found] at meets
    obtain ⟨address, placed, reaches, inside⟩ := running.bound.exists_address installed
      (Rule.meaningful_sized program) running.active.sound.toGrounded running.active.staged
      running.active.functions found
    exact ⟨target, location, address, linked, placed, reaches, inside, meets⟩

/-- An operator on the word on top of the stack. -/
theorem yields_unary {rule : Rule} {start middle stop : Int} {op : UnaryOper} {operand : Eval Word}
    {result : Word → Word} (installed : Installed program layout rule executable link)
    (sound : site.Sound executable program layout link watch)
    (clear : place.Clear executable site.bottom)
    (fetch : link.slots[middle]? = some (.unary op)) (stops : stop = middle + 1)
    (covered : start ≤ middle ∧ site.start ≤ start ∧ stop ≤ site.stop)
    (computes : ∀ word, op.eval word = result word)
    (own : site.Yields watch place count 4 (fun word => [word]) operand start middle) :
    site.Yields watch place count 4 (fun word => [word])
      (do let word ← operand; return result word) start stop := by
  intro world sp memory ambient here agrees meets
  have below := here.below
  refine own world sp memory ambient here agrees ((Eval.meets_bind.mp meets).mono
    fun word last next between later leaves => ?_)
  refine at_unary installed sound leaves.here ⟨by omega, by omega⟩ fetch (by omega)
    fun after quiet top stays => ?_
  rw [show sp - 4 + 4 = sp by omega] at quiet
  rw [leaves.top, computes] at top
  rw [← stops]
  exact next after later (leaves.replaced clear below quiet top stays)

/-- An operator on the two words on top of the stack. The machine stops where the operator
has no value. -/
theorem yields_binary {rule : Rule} {start middle later stop : Int} {op : BinaryOp}
    {first second : Eval Word} (installed : Installed program layout rule executable link)
    (sound : site.Sound executable program layout link watch)
    (clear : place.Clear executable site.bottom)
    (fetch : link.slots[later]? = some (.binary op)) (stops : stop = later + 1)
    (order : start ≤ middle ∧ middle ≤ later) (covered : site.start ≤ start ∧ stop ≤ site.stop)
    (onFirst : site.Yields watch place count 4 (fun word => [word]) first start middle)
    (onSecond : site.Yields watch place count 4 (fun word => [word]) second middle later) :
    site.Yields watch place count 4 (fun word => [word])
      (do
        let left ← first
        let right ← second
        match op.meaning left.toInt right.toInt with
        | some number => return Word.ofInt number
        | none => throw (.fault .divisionByZero)) start stop := by
  intro world sp memory ambient here agrees meets
  have below := here.below
  refine onFirst world sp memory ambient here agrees ((Eval.meets_bind.mp meets).mono
    fun left last more between ambient' leavesLeft => ?_)
  refine onSecond last _ between ambient' leavesLeft.here leavesLeft.agrees
    ((Eval.meets_bind.mp more).mono fun right final next operands ambient'' leavesRight => ?_)
  have leaves := leavesLeft.trans sound.toGrounded below leavesRight
  have isRight := leavesRight.top
  have isLeft : operands.word (sp - 4 - 4 + 4) = left := by
    have carried := leaves.carried.2.1
    rwa [show sp - (4 + 4) + 4 = sp - 4 - 4 + 4 by omega, Word.ofInt_toInt] at carried
  refine at_binary installed sound leavesRight.here ⟨by omega, by omega⟩ fetch
    (by omega) (fun value computed after quiet top stays => ?_) fun undefined => ?_
  · rw [isLeft, isRight, BinaryOp.eval?_eq_meaning] at computed
    obtain ⟨number, meaning, rfl⟩ := Option.map_eq_some_iff.mp computed
    rw [meaning] at next
    rw [show sp - 4 - 4 + 8 = sp by omega] at quiet
    rw [show sp - 4 - 4 + 4 = sp - 4 by omega] at top stays ⊢
    rw [← stops]
    exact next after ambient'' (leaves.replaced clear below quiet top stays)
  · rw [isLeft, isRight, BinaryOp.eval?_eq_meaning, Option.map_eq_none_iff] at undefined
    rw [undefined] at next
    rw [leaves.agrees.input, leaves.agrees.output]
    exact next

mutual

/-- The code of an expression leaves its value. -/
theorem yields_value {start stop : Int}
    (installed : Installed program layout (.meaningful program) executable link)
    (running : site.Running executable program layout link watch env place)
    (calls : CallsYield executable program layout link watch depth)
    (bounded : watch.counted → count ≤ depth) : (expr : Expr) →
    expr.Obeys (.meaningful program) env.scope →
    link.ValueAt (env.scope.context program layout) expr start stop →
    site.start ≤ start ∧ stop ≤ site.stop →
    site.Yields watch place count 4 (fun word => [word])
      (Eval.value program (Eval.invoke program depth) env expr) start stop
  | .atom id atom, obeys, held, covered => by
    obtain ⟨fetch, rfl⟩ := held
    intro world sp memory ambient here agrees meets
    dsimp only [Opcode.size] at covered
    rw [Eval.value, if_neg obeys.2.2] at meets
    have word : link.atomWord id atom = Word.ofInt atom.number := by
      rw [atomWord.eq_def]
      split
      next isText => exact absurd isText obeys.2.2
      next => rfl
    exact at_push installed.slots running.active.sound here ⟨covered.1, by omega⟩ fetch
      fun after quiet top moved => meets after ambient
        ((Leaves.nothing here agrees).replaced running.clear here.below quiet (top.trans word) moved)
  | .var id name, obeys, ⟨middle, address, fetch, stops⟩, covered => by
    have stopAt : stop = middle + 1 := stops
    intro world sp memory ambient here agrees meets
    obtain ⟨target, location, home, linked, placed, reaches, inside, fetched⟩ :=
      running.exists_address installed obeys (Eval.meets_bind.mp meets)
    have next := (Eval.meets_fetch (agrees.words _ inside)).mp fetched
    refine at_fetch installed running.active.sound here ⟨covered.1, by omega⟩ address fetch
      (by omega) linked placed reaches fun after quiet top moved => ?_
    rw [← stopAt]
    exact next after ambient
      ((Leaves.nothing here agrees).replaced running.clear here.below quiet top moved)
  | .unary _ .plus operand, ⟨_, obeys⟩, held, covered =>
    yields_value installed running calls bounded operand obeys held covered
  | .unary _ .not operand, ⟨_, obeys⟩, ⟨middle, held, fetch, stops⟩, covered => by
    have stopAt : stop = middle + 1 := stops
    refine yields_unary installed running.active.sound running.clear fetch stopAt
      ⟨ValueAt.le _ held, covered⟩ (fun word => ?_)
      (yields_value installed running calls bounded operand obeys held ⟨covered.1, by omega⟩)
    rw [UnaryOper.eval, Word.ofBool]
    simp only [beq_iff_eq]
  | .unary _ .minus operand, ⟨_, obeys⟩, ⟨middle, held, fetch, stops⟩, covered => by
    have stopAt : stop = middle + 1 := stops
    refine yields_unary installed running.active.sound running.clear fetch stopAt
      ⟨ValueAt.le _ held, covered⟩ (fun word => ?_)
      (yields_value installed running calls bounded operand obeys held ⟨covered.1, by omega⟩)
    rw [UnaryOper.eval, Word.ofInt, Int32.ofInt_neg, Int32.ofInt_toInt]
  | .unary _ .valueAt _, ⟨own, _⟩, _, _ => own.2.2.elim
  | .unary _ .addressOf _, ⟨own, _⟩, _, _ => own.2.2.elim
  | .binary _ op first second, ⟨_, obeysFirst, obeysSecond⟩,
      ⟨middle, later, heldFirst, heldSecond, fetch, stops⟩, covered => by
    have stopAt : stop = later + 1 := stops
    have lies := ValueAt.le _ heldFirst
    have liesSecond := ValueAt.le _ heldSecond
    exact yields_binary installed running.active.sound running.clear fetch stopAt
      ⟨lies, liesSecond⟩ covered
      (yields_value installed running calls bounded first obeysFirst heldFirst
        ⟨covered.1, by omega⟩)
      (yields_value installed running calls bounded second obeysSecond heldSecond
        ⟨by omega, by omega⟩)
  | .call id name args, ⟨own, obey⟩, ⟨middle, heldArgs, callee⟩, covered => by
    have lies := ArgsAt.le _ heldArgs
    have liesCallee := callee.le
    obtain ⟨⟨⟨visible, isVisible, linked⟩, other, isOther, sameLink, lengths⟩, -⟩ := own
    intro world sp memory ambient here agrees meets
    have below := here.below
    refine yields_args installed running calls bounded args obey heldArgs ⟨covered.1, by omega⟩
      world sp memory ambient here agrees ((Eval.meets_bind.mp meets).mono
        fun words last more between later leaves => ?_)
    rw [linked, Option.bind_some] at more
    cases found : env.function? visible.id with
    | none =>
      rw [found] at more
      exact False.elim more
    | some result =>
      obtain ⟨function, home⟩ := result
      rw [found] at more
      obtain ⟨hops, around, isOwn, sameId⟩ := Env.exists_around_of_function found
      have rooted := (running.active.staged.around around.scope).rooted installed isOwn
      have member := Program.mem_functions_of_nesting rooted.nested
      have equalIds : function.id = other.id :=
        sameId.trans (Option.some.inj (linked.symm.trans sameLink))
      obtain rfl := Program.functions_unique installed.distinct member isOther equalIds
      have parsSize := (rooted.sizes installed.arranged).1
      have wordsLength := leaves.length
      refine at_callee installed running.active.sound leaves.here ⟨by omega, covered.2⟩ callee
        sameLink running.active.staged running.active.inFunction running.active.functions
        around.scope isOwn (by omega) fun ready quiet isReady top fetch within stays => ?_
      have back : sp - 4 * (args.length : Int) - 4 + (layout.frameOf function.id).parsSize = sp := by
        omega
      refine calls count site home function _ words place last (stop - 1) _ ready later bounded
        running.active.sound stays isReady (running.bound.around around) running.clear
        (leaves.agrees.quiet running.clear leaves.here.below quiet)
        (by dsimp only at wordsLength; omega) ?_ within fetch top
        (more.mono fun value final next after ambient' leavesCall => ?_)
      · rw [show sp - 4 * (args.length : Int) - 4 + 4 = sp - 4 * (args.length : Int) by omega]
        exact leaves.carried.intact quiet fun index low _ => .inr low
      · rw [back] at leavesCall ⊢
        rw [show stop - 1 + 1 = stop by omega]
        exact next after ambient'
          (leavesCall.mono (leaves.stable.trans (stable_of_quiet (quiet.mono (by omega)))))

/-- The code of arguments leaves their values. -/
theorem yields_args {start stop : Int}
    (installed : Installed program layout (.meaningful program) executable link)
    (running : site.Running executable program layout link watch env place)
    (calls : CallsYield executable program layout link watch depth)
    (bounded : watch.counted → count ≤ depth) : (args : List Expr) →
    ExprsObey (.meaningful program) env.scope args →
    link.ArgsAt (env.scope.context program layout) args start stop →
    site.start ≤ start ∧ stop ≤ site.stop →
    site.Yields watch place count (4 * args.length) (fun words => words)
      (Eval.values program (Eval.invoke program depth) env args) start stop
  | [], _, held, _ => by
    obtain rfl : stop = start := held
    intro world sp memory ambient here agrees meets
    have next := meets memory ambient (.nothing here agrees)
    rwa [List.length_nil, show sp - 4 * ((0 : Nat) : Int) = sp by omega] at next
  | arg :: rest, ⟨obeysFirst, obeyRest⟩, ⟨middle, heldRest, heldFirst⟩, covered => by
    have lies := ArgsAt.le _ heldRest
    have liesFirst := ValueAt.le _ heldFirst
    intro world sp memory ambient here agrees meets
    have below := here.below
    refine yields_args installed running calls bounded rest obeyRest heldRest
      ⟨covered.1, by omega⟩ world sp memory ambient here agrees ((Eval.meets_bind.mp meets).mono
        fun later last more between ambient' leavesRest => ?_)
    refine yields_value installed running calls bounded arg obeysFirst heldFirst
      ⟨by omega, covered.2⟩ last _ between ambient' leavesRest.here leavesRest.agrees
      ((Eval.meets_bind.mp more).mono fun first final next after ambient'' leavesFirst => ?_)
    have leaves := leavesRest.trans running.active.sound.toGrounded below leavesFirst
    have bytes : 4 * ((arg :: rest).length : Int) = 4 * (rest.length : Int) + 4 := by
      rw [List.length_cons]
      omega
    have done := next after ambient'' (bytes ▸ leaves)
    rwa [bytes, show sp - (4 * (rest.length : Int) + 4) = sp - 4 * (rest.length : Int) - 4 by omega]
      at done

end

end Trees

section Statements

variable {executable : Executable} {program : Program} {layout : Layout} {link : Linkage}
  {watch : Watch executable} {site : Site}

/-- A conditional whose test and branches do what their evaluations do. -/
theorem yields_cond {rule : Rule} {place : Place} {count : Nat} {truth : Eval Word}
    {onTrue onFalse : Eval (Option Word)} {words : Option Word → List Word}
    {start tested yesStart yesStop noStart stop : Int}
    (installed : Installed program layout rule executable link)
    (sound : site.Sound executable program layout link watch)
    (clear : place.Clear executable site.bottom)
    (covered : site.start ≤ start ∧ stop ≤ site.stop)
    (branch : link.Holds tested
      [.push (Word.ofInt noStart), .push (Word.ofInt yesStart), .cjmp] yesStart)
    (jump : link.Holds yesStop [.push (Word.ofInt stop), .ujmp] noStart)
    (order : start ≤ tested ∧ yesStart ≤ yesStop ∧ noStart ≤ stop)
    (test : site.Yields watch place count 4 (fun word => [word]) truth start tested)
    (yes : site.Yields watch place count 0 (fun _ => []) onTrue yesStart yesStop)
    (no : site.Yields watch place count 0 (fun _ => []) onFalse noStart stop)
    (silent : words none = []) :
    site.Yields watch place count 0 words
      (do
        let word ← truth
        let _ ← if word = 0 then onFalse else onTrue
        return none) start stop := by
  have liesBranch := branch.le
  have liesJump := jump.le
  intro world sp memory ambient here agrees meets
  have below := here.below
  refine test world sp memory ambient here agrees ((Eval.meets_bind.mp meets).mono
    fun word last more between later leaves => ?_)
  refine at_branch installed sound leaves.here ⟨by omega, by omega⟩ branch (by omega)
    ⟨by omega, by omega⟩ ⟨by omega, by omega⟩ fun branched quiet stays => ?_
  rw [show sp - 4 + 4 = sp by omega] at stays ⊢
  have dropped := leaves.dropped clear below (quiet.mono (by omega)) stays
  rw [leaves.top]
  dsimp only at more
  by_cases isZero : word = 0
  · rw [if_neg (fun isTrue => isTrue isZero)]
    rw [if_pos isZero] at more
    refine no last sp branched later stays dropped.agrees ((Eval.meets_bind.mp more).mono
      fun _ final next after ambient' leavesNo => ?_)
    exact next after ambient' (silent ▸ leavesNo.mono dropped.stable)
  · rw [if_pos isZero]
    rw [if_neg isZero] at more
    refine yes last sp branched later stays dropped.agrees ((Eval.meets_bind.mp more).mono
      fun _ final next after ambient' leavesYes => ?_)
    have there := leavesYes.here
    rw [Int.sub_zero] at there ⊢
    -- Only the branch taken when the test holds has to jump over the other one.
    refine at_jump installed sound there ⟨by omega, by omega⟩ jump ⟨by omega, by omega⟩
      fun ended quietJump finished => ?_
    have leavesJump := leavesYes.dropped clear below quietJump finished
    have done := next ended ambient' (silent ▸ leavesJump.mono dropped.stable)
    rw [Int.sub_zero] at done
    exact done.mono (Nat.sub_le _ _)

/-- A loop whose test and body do what their evaluations do. Every round takes a step. -/
theorem yields_loop {rule : Rule} {place : Place} {truth : Eval Word} {round : Eval (Option Word)}
    {start tested bodyStart bodyStop stop : Int}
    (installed : Installed program layout rule executable link)
    (sound : site.Sound executable program layout link watch)
    (clear : place.Clear executable site.bottom)
    (covered : site.start ≤ start ∧ stop ≤ site.stop)
    (branch : link.Holds tested
      [.push (Word.ofInt stop), .push (Word.ofInt bodyStart), .cjmp] bodyStart)
    (back : link.Holds bodyStop [.push (Word.ofInt start), .ujmp] stop)
    (order : start ≤ tested ∧ bodyStart ≤ bodyStop) (rounds count : Nat)
    (bounded : watch.counted → count ≤ rounds)
    (test : ∀ fewer ≤ count, site.Yields watch place fewer 4 (fun word => [word]) truth start tested)
    (body : ∀ fewer ≤ count, site.Yields watch place fewer 0 (fun _ => []) round bodyStart bodyStop) :
    site.Yields watch place count 0 (fun _ => [])
      (Eval.iterate rounds do
        let word ← truth
        if word = 0 then return false
        let _ ← round
        return true) start stop := by
  have first := branch.le
  have last := back.le
  induction rounds generalizing count with
  | zero =>
    intro world sp memory ambient here agrees counted
    obtain rfl : count = 0 := Nat.le_zero.mp (bounded counted)
    exact fun steps => watch.zero counted
  | succ rounds hypothesis =>
    intro world sp memory ambient here agrees meets
    have below := here.below
    refine test count (Nat.le_refl _) world sp memory ambient here agrees
      ((Eval.meets_bind.mp (Eval.meets_bind.mp meets)).mono
        fun word tested more afterTest later leaves => ?_)
    refine at_branch installed sound leaves.here ⟨by omega, by omega⟩ branch (by omega)
      ⟨by omega, by omega⟩ ⟨by omega, by omega⟩ fun branched quiet stays => ?_
    rw [show sp - 4 + 4 = sp by omega] at stays ⊢
    have dropped := leaves.dropped clear below (quiet.mono (by omega)) stays
    rw [leaves.top]
    by_cases isZero : word = 0
    · rw [if_neg (fun isTrue => isTrue isZero)]
      rw [if_pos isZero] at more
      have next := more branched later dropped
      rwa [Int.sub_zero] at next
    · rw [if_pos isZero]
      rw [if_neg isZero] at more
      refine body count (Nat.le_refl _) tested sp branched later stays dropped.agrees
        ((Eval.meets_bind.mp more).mono fun _ world' again afterBody ambient' leavesBody => ?_)
      have there := leavesBody.here
      rw [Int.sub_zero] at there ⊢
      refine at_jump installed sound there ⟨by omega, by omega⟩ back ⟨by omega, by omega⟩
        fun jumped quietJump returned => ?_
      have jumpedLeaves := leavesBody.dropped clear below quietJump returned
      refine hypothesis (count - 1) (fun counted => by have := bounded counted; omega)
        (fun fewer le => test fewer (by omega)) (fun fewer le => body fewer (by omega))
        world' sp jumped ambient' returned jumpedLeaves.agrees
        (Eval.Meets.mono again fun _ final next after ambient'' leavesAfter => ?_)
      refine (next after ambient'' (leavesAfter.mono ?_)).mono (Nat.sub_le _ _)
      exact dropped.stable.trans jumpedLeaves.stable

/-- Entering a block: its variables have been given their first words, and they get fresh
locations. -/
theorem Running.enterBlock {env : Env} {place : Place} {defs : List Def} {owner : FunDef}
    {label : String} {level : Nat} {before after : Layout.Extent} {world : World} {memory : Memory}
    {ambient : Ambient} {next : Bindings → World → Prop}
    (running : site.Running executable program layout link watch env place)
    (staged : (Scope.block defs env.scope).Staged program layout (.meaningful program) link)
    (laid : layout.DefsLaid label level defs before after)
    (innermost : site.chain.head? = some (owner, site.fp))
    (low : -(layout.frameOf owner.id).varsSize ≤ after.locals.bottom)
    (frontier : place.Clear executable (site.fp + before.locals.bottom))
    (agrees : place.Agrees world memory ambient)
    (words : ∀ declared ∈ variablesIn defs, ∀ access : RelAccess,
      layout.accesses[declared.id]? = some (.rel access) →
      memory.word (site.fp + access.offset) = declared.firstWord)
    (meets : (Eval.bindAll ((variablesIn defs).map VarDef.id)
      ((variablesIn defs).map VarDef.firstWord)).Meets watch.Accepts next world) :
    ∃ locals more last, next locals last ∧ place ⊆ more ∧
      Place.Agrees more last memory ambient ∧
      Place.Clear executable (site.fp + after.locals.bottom) more ∧
      site.Running executable program layout link watch (.block defs locals env) more := by
  have sized (declared : VarDef) (member : declared ∈ variablesIn defs) :
      Initializer.contents? declared.items ≠ some [] :=
    (Rule.meaningful_sized program).declared _ _ (staged.2.1 declared member).1
  have fit (declared : VarDef) (member : declared ∈ variablesIn defs) : declared.LengthsFit :=
    (staged.2.1 declared member).2
  have stacked := laid.adds.stacked fit
  have whole := stacked.le
  obtain ⟨rest, chain⟩ := List.head?_eq_some_iff.mp innermost
  have address (id : NodeId) : link.addressIn layout site.chain id = site.fp + layout.offset id := by
    rw [chain, addressIn]
  have stands : (layout.frameOf owner.id).Stands site.kept site.bottom executable.memory.size
      site.fp := running.active.sound.frames _ (List.mem_of_mem_head? innermost)
  have above := stands.above
  have data := running.active.sound.data
  -- Where the variables of the block lie.
  have slots : ∀ id ∈ (variablesIn defs).map VarDef.id,
      after.locals.bottom ≤ layout.offset id ∧ layout.offset id + 4 ≤ before.locals.bottom := by
    intro id inside
    obtain ⟨declared, member, rfl⟩ := List.mem_map.mp inside
    obtain ⟨flat, size, access, measured, found, -, -, least, most⟩ := laid.slot fit member
    have long := Scope.four_le_of_measure (sized declared member) (fit declared member) measured
    rw [Layout.offset_eq found]
    omega
  have written : ∀ declared ∈ variablesIn defs,
      memory.word (link.addressIn layout site.chain declared.id) = declared.firstWord := by
    intro declared member
    obtain ⟨-, -, access, -, placed, -⟩ := laid.entry member
    rw [address, Layout.offset_eq placed]
    exact words declared member access placed
  obtain ⟨locals, more, last, holds, larger, agreesMore, bound, only⟩ := agrees.bindDefs written
    ((stacked.pairwise sized).imp fun below => by
      rw [address, address]
      exact .inr (by omega))
    (fun id inside entry member => by
      have ends := slots id inside
      have clear := frontier entry member
      rw [address]
      simp only [Memory.Apart]
      omega) meets
  have lowest : more.Clear executable (site.fp + after.locals.bottom) := by
    intro entry member
    rcases only entry member with inside | ⟨id, inside, same⟩
    · have clear := frontier entry inside
      omega
    · have ends := slots id inside
      rw [same, address]
      omega
  refine ⟨locals, more, last, holds, larger, agreesMore, lowest, ?_, ?_, lowest.mono (by omega)⟩
  · exact ⟨running.active.sound, staged, running.active.functions, running.active.inFunction⟩
  · exact (running.bound.mono larger).block bound

mutual

/-- The code of a statement does what its evaluation does; it leaves the value of the
function if it is the last one and has a value. -/
theorem yields_stmt {env : Env} {place : Place} {depth : Nat} {tail : Bool}
    {before after : Layout.Extent} {start stop : Int}
    (installed : Installed program layout (.meaningful program) executable link)
    (running : site.Running executable program layout link watch env place)
    (calls : CallsYield executable program layout link watch depth) (count : Nat)
    (bounded : watch.counted → count ≤ depth)
    (frontier : place.Clear executable (site.fp + before.locals.bottom)) : (stmt : Stmt) →
    env.scope.Hosts program layout (.meaningful program) stmt before after →
    link.StmtAt (env.scope.context program layout) tail stmt start stop →
    site.start ≤ start ∧ stop ≤ site.stop →
    site.Yields watch place count (if tail && stmt.leavesValue then 4 else 0)
      (fun result => if tail then result.toList else [])
      (Eval.execute program (Eval.invoke program depth) depth env stmt) start stop
  | .expr id value, hosts, ⟨middle, held, rest⟩, covered => by
    have lies := ValueAt.le _ held
    have liesRest := rest.le
    have own := yields_value installed running calls bounded value hosts.obeys.2 held
      ⟨covered.1, by omega⟩
    intro world sp memory ambient here agrees meets
    have below := here.below
    refine own world sp memory ambient here agrees ((Eval.meets_bind.mp meets).mono
      fun word last next between later leaves => ?_)
    cases tail with
    | true =>
      obtain rfl : stop = middle := rest
      exact next between later leaves
    | false =>
      refine at_discard installed running.active.sound leaves.here ⟨by omega, covered.2⟩ rest
        (by omega) fun last quiet stays => ?_
      rw [show sp - 4 + 4 = sp by omega] at stays ⊢
      have dropped := leaves.dropped running.clear below (quiet.mono (by omega)) stays
      have done := next last later dropped
      rwa [Bool.false_and, if_neg Bool.false_ne_true, Int.sub_zero] at done
  | .assign id target source, hosts, ⟨middle, later, heldSource, heldTarget, fetch, stops⟩,
      covered => by
    obtain ⟨own, obeysTarget, obeysSource⟩ := hosts.obeys
    have stopAt : stop = later + 1 := stops
    have lies := ValueAt.le _ heldSource
    have liesTarget := heldTarget.le
    cases target with
    | var use name =>
      intro world sp memory ambient here agrees meets
      have below := here.below
      refine yields_value installed running calls bounded source obeysSource heldSource
        ⟨covered.1, by omega⟩ world sp memory ambient here agrees ((Eval.meets_bind.mp meets).mono
          fun word last more between final leaves => ?_)
      obtain ⟨target, location, home, linked, placed, reaches, inside, next⟩ :=
        running.exists_address installed obeysTarget (Eval.meets_bind.mp more)
      refine at_assign installed running.active.sound leaves.here ⟨by omega, by omega⟩ heldTarget
        fetch (by omega) linked placed reaches (by omega) fun pushed last quiet put stays => ?_
      rw [leaves.top] at put
      rw [show sp - 4 + 4 = sp by omega] at stays ⊢
      rw [← stopAt]
      have agreesPushed := leaves.agrees.quiet running.clear leaves.here.below quiet
      refine Resumes.silent (Eval.meets_bind.mp next)
        ⟨?_, agreesPushed.assign inside put, rfl, trivial, by rwa [Int.sub_zero]⟩
      exact leaves.stable.trans ((stable_of_quiet (quiet.mono (by omega))).trans
        (stable_of_put put reaches.apart))
    | atom _ _ | call _ _ _ | unary _ _ _ | binary _ _ _ _ => exact own.2.2.elim
  | .cond id test yes no, hosts,
      ⟨tested, yesStart, yesStop, noStart, heldTest, branch, heldYes, jump, heldNo⟩, covered => by
    obtain ⟨obeysTest, middle, hostsYes, hostsNo⟩ := hosts.cond installed.arranged
    have lies := ValueAt.le _ heldTest
    have liesBranch := branch.le
    have liesYes := StmtsAt.le _ heldYes
    have liesJump := jump.le
    have liesNo := StmtsAt.le _ heldNo
    have lower := hostsYes.bottom_le installed.arranged
    rw [show (tail && (Stmt.cond id test yes no).leavesValue) = false from Bool.and_false _]
    exact yields_cond installed running.active.sound running.clear covered branch jump
      ⟨lies, liesYes, liesNo⟩
      (yields_value installed running calls bounded test obeysTest heldTest ⟨covered.1, by omega⟩)
      (yields_stmts installed running calls count bounded frontier yes hostsYes heldYes
        ⟨by omega, by omega⟩)
      (yields_stmts installed running calls count bounded (frontier.mono (by omega)) no hostsNo
        heldNo ⟨by omega, by omega⟩)
      (by cases tail <;> rfl)
  | .loop id test body, hosts,
      ⟨tested, bodyStart, bodyStop, heldTest, branch, heldBody, back⟩, covered => by
    obtain ⟨obeysTest, hostsBody⟩ := hosts.loop
    have lies := ValueAt.le _ heldTest
    have liesBranch := branch.le
    have liesBody := StmtsAt.le _ heldBody
    have liesBack := back.le
    have own := yields_loop installed running.active.sound running.clear covered branch back
      ⟨lies, liesBody⟩ depth count bounded
      (fun fewer le => yields_value installed running calls
        (fun counted => Nat.le_trans le (bounded counted)) test obeysTest heldTest
        ⟨covered.1, by omega⟩)
      (fun fewer le => yields_stmts installed running calls fewer
        (fun counted => Nat.le_trans le (bounded counted)) frontier body hostsBody heldBody
        ⟨by omega, by omega⟩)
    intro world sp memory ambient here agrees meets
    refine own world sp memory ambient here agrees ((Eval.meets_bind.mp meets).mono
      fun _ last next after later leaves => ?_)
    rw [Int.sub_zero]
    exact Resumes.silent next leaves
  | .block id defs body, hosts, ⟨middle, heldLocals, heldBody, functions⟩, covered => by
    have lies := heldLocals.le
    have liesBody := StmtsAt.le _ heldBody
    obtain ⟨between, ⟨label, laid⟩, data, staged, ⟨high, owner, head, low⟩, hostsBody⟩ :=
      hosts.block installed.arranged running.active.staged functions
    have innermost := running.active.innermost head
    have stands : (layout.frameOf owner.id).Stands site.kept site.bottom executable.memory.size
        site.fp := running.active.sound.frames _ (List.mem_of_mem_head? innermost)
    have above := stands.above
    have dataEnd := running.active.sound.data
    have fit (declared : VarDef) (member : declared ∈ variablesIn defs) : declared.LengthsFit :=
      (staged.2.1 declared member).2
    have whole := (laid.adds.stacked fit).le
    intro world sp memory ambient here agrees meets
    have below := here.below
    refine at_locals installed running.active.sound here ⟨covered.1, by omega⟩ heldLocals laid
      (fun declared member => (Rule.meaningful_sized program).declared _ _
        (staged.2.1 declared member).1) fit data innermost low high
      fun filled change words moved => ?_
    have agreesFilled := agrees.intact change fun entry inside index least most => by
      have clear := frontier entry inside
      omega
    obtain ⟨locals, more, last, holds, larger, agreesMore, lowest, inner⟩ :=
      running.enterBlock staged laid innermost low frontier agreesFilled words
        (Eval.meets_bind.mp meets)
    refine yields_stmts installed inner calls count bounded lowest body hostsBody heldBody
      ⟨by omega, covered.2⟩ last sp filled ambient moved agreesMore (holds.mono
        fun result final next after later leaves => next after later ?_)
    exact { leaves with
      stable := (stable_of_filled change stands low high).trans leaves.stable
      agrees := leaves.agrees.mono larger }

/-- The code of statements does what their evaluation does. -/
theorem yields_stmts {env : Env} {place : Place} {depth : Nat} {tail : Bool}
    {before after : Layout.Extent} {start stop : Int}
    (installed : Installed program layout (.meaningful program) executable link)
    (running : site.Running executable program layout link watch env place)
    (calls : CallsYield executable program layout link watch depth) (count : Nat)
    (bounded : watch.counted → count ≤ depth)
    (frontier : place.Clear executable (site.fp + before.locals.bottom)) : (stmts : List Stmt) →
    env.scope.HostsAll program layout (.meaningful program) stmts before after →
    link.StmtsAt (env.scope.context program layout) tail stmts start stop →
    site.start ≤ start ∧ stop ≤ site.stop →
    site.Yields watch place count (if tail && leavesValue stmts then 4 else 0)
      (fun result => if tail then result.toList else [])
      (Eval.executeAll program (Eval.invoke program depth) depth env stmts) start stop
  | [], _, held, _ => by
    obtain rfl : stop = start := held
    intro world sp memory ambient here agrees meets
    exact Resumes.silent meets (.nothing here agrees)
  | stmt :: rest, hosts, ⟨middle, held, heldRest⟩, covered => by
    have lies := StmtAt.le _ held
    have liesRest := StmtsAt.le _ heldRest
    obtain ⟨between, hostsOwn, hostsRest⟩ := hosts.cons installed.arranged
    have lower := hostsOwn.bottom_le installed.arranged
    have own := yields_stmt installed running calls count bounded frontier stmt hostsOwn held
      ⟨covered.1, by omega⟩
    intro world sp memory ambient here agrees meets
    refine own world sp memory ambient here agrees ((Eval.meets_bind.mp meets).mono
      fun result last more afterOwn later leaves => ?_)
    cases rest with
    | nil =>
      obtain rfl : stop = middle := heldRest
      simp only [List.isEmpty_nil, Bool.and_true] at leaves ⊢
      exact more afterOwn later leaves
    | cons next others =>
      simp only [List.isEmpty_cons, Bool.and_false, Bool.false_and, Bool.false_eq_true,
        if_false] at leaves ⊢
      have there := leaves.here
      rw [Int.sub_zero] at there ⊢
      refine yields_stmts installed running calls count bounded (frontier.mono (by omega))
        (next :: others) hostsRest heldRest ⟨by omega, covered.2⟩ last sp afterOwn later there
        leaves.agrees (Eval.Meets.mono more fun value final done after ambient' leavesRest => ?_)
      exact done after ambient' (leavesRest.mono leaves.stable)

end

end Statements

section Calls

variable {executable : Executable} {program : Program} {layout : Layout} {link : Linkage}
  {watch : Watch executable} {site : Site}

/-- The code of a function up to its return leaves the value of the function. -/
theorem yields_body {home : Env} {function : FunDef} {params : Bindings} {place : Place}
    {count depth : Nat}
    (installed : Installed program layout (.meaningful program) executable link)
    (running : site.Running executable program layout link watch (.enter function params home) place)
    (calls : CallsYield executable program layout link watch depth)
    (bounded : watch.counted → count ≤ depth)
    (frontier : place.Clear executable (site.fp - Frame.headerSize))
    (starts : site.start = link.entry function.id + 6) (stops : site.stop = link.stop function.id)
    (hasBody : function.isExternal = false) :
    ∃ finish, site.Yields watch place count 4 (fun word => [word]) (do
        let result ← Eval.executeAll program (Eval.invoke program depth) depth
          (.enter function params home) function.body
        return result.getD 0) site.start finish ∧
      site.start ≤ finish ∧ link.Holds finish
        [.push (Word.ofInt ((layout.frameOf function.id).parsSize - 4)), .retn]
        (link.stop function.id) := by
  have rooted := running.active.staged.1
  obtain ⟨bodyStop, finish, -, -, held, value, returns⟩ := rooted.parts hasBody
  obtain ⟨first, last, top, hosts⟩ := rooted.hosts
  have lies := StmtsAt.le _ held
  have liesValue := value.le
  have liesReturn := returns.le
  have own := yields_stmts installed running calls count bounded
    (frontier.mono (by rw [top]; omega)) function.body hosts held ⟨by omega, by omega⟩
  rw [starts]
  refine ⟨finish, fun world sp memory ambient here agrees meets => ?_, by omega, returns⟩
  have below := here.below
  refine own world sp memory ambient here agrees ((Eval.meets_bind.mp meets).mono
    fun result last next between later leaves => ?_)
  dsimp only at leaves
  rw [Bool.true_and, if_pos rfl] at leaves
  rw [Bool.true_and]
  cases leavesWord : leavesValue function.body with
  | true =>
    rw [leavesWord] at leaves value
    obtain rfl : finish = bodyStop := value
    have length := leaves.length
    cases result with
    | none => simp at length
    | some word => exact next between later leaves
  | false =>
    rw [leavesWord] at leaves value
    obtain ⟨fetch, ends⟩ := value
    have finishAt : finish = bodyStop + 5 := ends
    have length := leaves.length
    cases result with
    | some word => simp at length
    | none =>
      have there := leaves.here
      rw [if_neg Bool.false_ne_true, Int.sub_zero] at there ⊢
      refine at_push installed.slots running.active.sound there ⟨by omega, by omega⟩ fetch
        fun after quiet zero stays => ?_
      rw [← finishAt]
      exact next after later (leaves.replaced running.clear below quiet zero stays)

/-- A call of a service does what evaluation says. -/
theorem at_serve {home : Scope} {function : FunDef} {args : List Word} {place : Place} {count : Nat}
    {world : World} {pc base : Int} {memory : Memory} {ambient : Ambient}
    (installed : Installed program layout (.meaningful program) executable link)
    (sound : site.Sound executable program layout link watch)
    (here : site.Here executable (base - 4) memory ambient)
    (rooted : Scope.Rooted program layout (.meaningful program) link home function)
    (room : base + (layout.frameOf function.id).parsSize ≤ site.bottom)
    (external : function.isExternal = true) (clear : place.Clear executable site.bottom)
    (agrees : place.Agrees world memory ambient) (lengths : args.length = function.params.length)
    (carried : memory.WordsAt (base + 4) (args.map Int32.toInt))
    (within : site.start ≤ pc ∧ pc < site.stop) (fetch : link.slots[pc]? = some .call)
    (top : memory.word (base - 4) = Word.ofInt (link.entry function.id))
    (meets : (Eval.serve function args).Meets watch.Accepts
      (fun value => site.Resumes watch place count (pc + 1)
        (base + (layout.frameOf function.id).parsSize) memory 4 [value]) world) :
    watch.At count site.live pc site.fp (base - 4) memory ambient := by
  have parsSize := (rooted.sizes installed.arranged).1
  obtain ⟨service, allowed, named, arity⟩ := rooted.obeys.service external
  rw [installed.service function (Program.mem_functions_of_nesting rooted.nested) external service
    named] at top
  rw [arity] at lengths parsSize
  have argument {word : Word} (single : args = [word]) : memory.word (base + 4) = word := by
    rw [single] at carried
    rw [carried.1, Word.ofInt_toInt]
  simp only [List.mem_cons, List.not_mem_nil, or_false] at allowed
  rcases allowed with rfl | rfl | rfl
  · obtain ⟨code, single⟩ := List.length_eq_one_iff.mp lengths
    subst single
    have size : (layout.frameOf function.id).parsSize = 8 := parsSize
    refine at_exit installed sound here within fetch top (by omega) ?_
    rw [argument rfl, agrees.input, agrees.output]
    exact (Eval.meets_exit named).mp meets
  · obtain rfl := List.length_eq_zero_iff.mp lengths
    have size : (layout.frameOf function.id).parsSize = 4 := parsSize
    rw [size] at meets
    have reads := (Eval.meets_getint named).mp meets
    rw [← agrees.input] at reads
    refine at_getint installed sound here within fetch top (by omega)
      (fun value rest found after quiet result moved => ?_) fun fault rest found => ?_
    · rw [found] at reads
      have back : base + 4 - 4 = base := by omega
      have done := reads after { ambient with input := rest }
        ⟨stable_of_quiet quiet, (agrees.quiet clear (by omega) quiet).read rest, rfl,
          ⟨by rw [back, result, Word.ofInt_toInt], trivial⟩, by rwa [back]⟩
      rwa [back] at done
    · rw [found] at reads
      rw [agrees.output]
      exact reads
  · obtain ⟨value, single⟩ := List.length_eq_one_iff.mp lengths
    subst single
    have size : (layout.frameOf function.id).parsSize = 8 := parsSize
    rw [size] at meets
    have writes := (Eval.meets_putint named).mp meets
    rw [← agrees.output] at writes
    refine at_putint installed sound here within fetch top (by omega) (by rw [argument rfl])
      (fun fits after quiet result moved => ?_) fun full => ?_
    · rw [if_pos fits] at writes
      have back : base + 8 - 4 = base + 4 := by omega
      have agreesAfter := (agrees.quiet clear (by omega) quiet).write
        (Utf8.encode (Decimal.render value.toInt))
      rw [← agrees.output] at agreesAfter
      have done := writes after _ ⟨stable_of_quiet quiet, agreesAfter, rfl,
        ⟨by rw [back, result]; rfl, trivial⟩, by rwa [back]⟩
      rwa [back] at done
    · rw [full, if_neg Bool.false_ne_true] at writes
      rw [agrees.input]
      exact writes

/-- Entering a function: its arguments are on the stack, and its parameters get fresh
locations. -/
theorem Entered.running {home : Env} {function : FunDef} {outer : List (FunDef × Int)}
    {args : List Word} {place : Place} {world : World} {pc base sp : Int} {memory origin : Memory}
    {ambient : Ambient} {next : Bindings → World → Prop}
    (installed : Installed program layout (.meaningful program) executable link)
    (sound : site.Sound executable program layout link watch)
    (lax : ∀ pc fp memory live, watch.good pc fp memory live)
    (here : site.Here executable sp memory ambient)
    (entered : Entered executable program layout (.meaningful program) link site home.scope function
      outer base pc memory origin)
    (bound : place.Bound layout link home outer) (clear : place.Clear executable site.bottom)
    (agrees : place.Agrees world memory ambient) (lengths : args.length = function.params.length)
    (carried : memory.WordsAt (base + 4) (args.map Int32.toInt))
    (meets : (Eval.bindAll (function.params.map Param.id) args).Meets watch.Accepts next world) :
    ∃ params more last, next params last ∧ place ⊆ more ∧ Place.Agrees more last origin ambient ∧
      Place.Clear executable (base - Frame.headerSize) more ∧
      (site.entered layout link function outer base pc origin).Running executable program layout link
        watch (.enter function params home) more := by
  have inner : (site.entered layout link function outer base pc origin).Sound executable program
      layout link watch :=
    ⟨entered.grounded installed sound.toGrounded here, fun _ _ _ _ _ => lax _ _ _ _⟩
  obtain ⟨parsSize, words, -, varsSize⟩ := entered.rooted.sizes installed.arranged
  obtain ⟨label, before, after, laid⟩ := entered.rooted.laid
  have room := entered.room
  have data := entered.data
  have address (id : NodeId) : link.addressIn layout ((function, base) :: outer) id =
      base + layout.offset id := rfl
  have slots : ∀ id ∈ function.params.map Param.id, 4 ≤ layout.offset id ∧
      layout.offset id + 4 ≤ (layout.frameOf function.id).parsSize := by
    intro id inside
    obtain ⟨param, member, rfl⟩ := List.mem_map.mp inside
    obtain ⟨index, found⟩ := List.mem_iff_getElem?.mp member
    have shorter := (List.getElem?_eq_some_iff.mp found).1
    rw [Layout.offset_eq (laid.body.1 index param found)]
    dsimp only [Layout.paramAccess]
    omega
  have passed : ∀ (index : Nat) (id : NodeId) (value : Word),
      (function.params.map Param.id)[index]? = some id → args[index]? = some value →
      origin.word (link.addressIn layout ((function, base) :: outer) id) = value := by
    intro index id value isId isValue
    rw [List.getElem?_map] at isId
    obtain ⟨param, found, rfl⟩ := Option.map_eq_some_iff.mp isId
    rw [address, Layout.offset_eq (laid.body.1 index param found), ← carried.word isValue]
    dsimp only [Layout.paramAccess]
    rw [show base + 4 * ((index : Int) + 1) = base + 4 + 4 * (index : Int) by omega]
    exact entered.quiet.word fun place low high => .inr (by omega)
  have agreesOrigin := agrees.quiet clear (by omega) entered.quiet
  obtain ⟨params, more, last, holds, larger, agreesMore, own, only⟩ := agreesOrigin.bindAll
    (by rw [List.length_map, lengths]) passed
    (laid.body.1.pairwise.imp fun above => by
      rw [address, address]
      exact .inl (by omega))
    (fun id inside entry member => by
      have ends := slots id inside
      have apart := clear entry member
      rw [address]
      simp only [Memory.Apart]
      omega) meets
  have lowest : more.Clear executable (base - Frame.headerSize) := by
    intro entry member
    simp only [Frame.headerSize]
    rcases only entry member with inside | ⟨id, inside, same⟩
    · have apart := clear entry inside
      omega
    · have ends := slots id inside
      rw [same, address]
      omega
  refine ⟨params, more, last, holds, larger, agreesMore, lowest, entered.active inner,
    (bound.mono larger).enter own, lowest.mono ?_⟩
  simp only [Site.entered, Frame.headerSize]
  omega

/-- Calls do what evaluation does, however deep they nest. -/
theorem callsYield (installed : Installed program layout (.meaningful program) executable link)
    (lax : ∀ pc fp memory live, watch.good pc fp memory live) (depth : Nat) :
    CallsYield executable program layout link watch depth := by
  induction depth with
  | zero =>
    intro count site home function outer args place world pc base memory ambient bounded _ _ _ _ _
      _ _ _ _ _ _ counted
    obtain rfl : count = 0 := Nat.le_zero.mp (bounded counted)
    exact fun steps => watch.zero counted
  | succ depth hypothesis =>
    intro count site home function outer args place world pc base memory ambient bounded sound here
      ready bound clear agrees lengths carried within fetch top meets
    rw [Eval.invoke] at meets
    have room := ready.room
    cases external : function.isExternal with
    | true =>
      rw [external, if_pos rfl] at meets
      exact at_serve installed sound here ready.rooted room external clear agrees lengths carried
        within fetch top meets
    | false =>
      rw [external, if_neg Bool.false_ne_true] at meets
      obtain ⟨parsSize, words, -, varsSize⟩ := ready.rooted.sizes installed.arranged
      refine at_enter installed sound here ready external within fetch top
        (fun _ _ _ _ => lax _ _ _ _) fun origin entered there => ?_
      obtain ⟨params, more, last, holds, larger, agreesMore, lowest, running⟩ :=
        entered.running installed sound lax here bound clear agrees lengths carried
          (Eval.meets_bind.mp meets)
      obtain ⟨finish, own, low, returns⟩ := yields_body installed running hypothesis
        (show watch.counted → count - 1 ≤ depth from fun counted => by have := bounded counted; omega)
        lowest rfl rfl external
      refine own last _ origin ambient there agreesMore (Eval.Meets.mono holds
        fun value final next after later leaves => ?_)
      refine at_return installed sound here entered running.active.sound leaves.here within low
        returns fun middle returned quiet put stable arrived => ?_
      have data := entered.data
      have agreesReturned : place.Agrees final returned later := by
        have agreesMiddle := (leaves.agrees.mono larger).quiet clear (by omega) quiet
        refine agreesMiddle.intact put.outside fun entry inside index least most => ?_
        have apart := clear entry inside
        omega
      refine (next returned later ⟨stable, agreesReturned, rfl, ⟨?_, trivial⟩, arrived⟩).mono
        (Nat.sub_le _ _)
      rw [put.word, leaves.top, Word.ofInt_toInt]

end Calls

end Site

end ScopeStack
