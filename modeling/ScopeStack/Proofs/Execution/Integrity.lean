import ScopeStack.Proofs.Execution.Startup

/-!
# Frames and access links stay intact

In programs that assign to variables alone, and do not read lines into memory, no
frame is ever damaged. Wherever execution is in the body of a function, the frame
pointer is the base of the latest activation of this function, the return address and
the frame pointer of the caller are where the call has put them, and the access links
lead to the latest activations of the functions around it: `frames_stay_intact`. The
stack never runs empty, and there is an instruction at every address that is reached.

The proof watches such a machine for any number of steps. What expressions and
statements do is summarized by `Site.Takes`, the words that they leave on the stack; a
call is followed for the steps that remain, by induction on their number.
-/

namespace ScopeStack

open Emission Linkage

/-- The frame of a running function: it belongs to the latest activation, and following
access links from it leads to the frames of the latest activations of the functions
around, from the innermost outward. -/
structure Linkage.Anchored (link : Linkage) (function : FunDef) (around : List FunDef) (fp : Int)
    (memory : Memory) (live : List Activation) : Prop where
  own : ∃ own ∈ live.head?, own.entry = link.entry function.id ∧ own.base = fp ∧
    (memory.word (fp - 8)).toInt = own.returnAddress ∧
    (memory.word (fp - 4)).toInt = own.callerBase
  links : ∀ (hops : Nat) (outer : FunDef), (function :: around)[hops]? = some outer →
    ∃ activation, live.find? (fun activation => activation.entry = link.entry outer.id) =
        some activation ∧ memory.follow hops fp = activation.base

/-- Wherever the program counter is in the body of a function, after the room for its
variables has been reserved, its frame is anchored. -/
def Linkage.AnchoredAt (link : Linkage) (program : Program) (pc fp : Int) (memory : Memory)
    (live : List Activation) : Prop :=
  ∀ around function, (around, function) ∈ program.nesting → function.isExternal = false →
    link.entry function.id + 6 ≤ pc → pc < link.stop function.id →
    link.Anchored function around fp memory live

namespace Executable

/-- The states that are reached by successful steps, with the activations in them. -/
inductive Traced (executable : Executable) (input : List UInt8) (outputLimit : Option Nat) :
    State → List Activation → Prop
  | start : Traced executable input outputLimit (executable.start input outputLimit) []
  | step {state next : State} {live : List Activation} {status : Status}
      (before : Traced executable input outputLimit state live)
      (stepped : executable.step.run state = .ok status next) :
      Traced executable input outputLimit next (executable.track state live)

variable (executable : Executable) (good : Int → Int → Memory → List Activation → Prop)

/-- For a number of steps every state is good, and no step faults in an irregular
way. -/
def SafeFor : Nat → State → List Activation → Prop
  | 0, _, _ => True
  | count + 1, state, live =>
    good state.registers.pc state.registers.fp state.memory live ∧
      match executable.step.run state with
      | .ok _ next => SafeFor count next (executable.track state live)
      | .error fault _ => fault.Regular

variable {executable good} {state next : State} {live : List Activation}

/-- A machine that is safe for a number of steps is safe for fewer. -/
theorem SafeFor.mono {fewer more : Nat} (le : fewer ≤ more)
    (safe : executable.SafeFor good more state live) : executable.SafeFor good fewer state live := by
  induction more generalizing fewer state live with
  | zero =>
    obtain rfl : fewer = 0 := Nat.le_zero.mp le
    trivial
  | succ more hypothesis =>
    cases fewer with
    | zero => trivial
    | succ fewer =>
      refine ⟨safe.1, ?_⟩
      have later := safe.2
      split at later
      · exact hypothesis (Nat.le_of_succ_le_succ le) later
      · exact later

/-- A machine is safe if it is so after one step and the state before it is good. -/
theorem safeFor_of_step {count : Nat} {status : Status}
    (isGood : good state.registers.pc state.registers.fp state.memory live)
    (stepped : executable.step.run state = .ok status next)
    (later : executable.SafeFor good (count - 1) next (executable.track state live)) :
    executable.SafeFor good count state live := by
  cases count with
  | zero => trivial
  | succ count =>
    refine ⟨isGood, ?_⟩
    rw [stepped]
    exact later

/-- A machine that has halted stays as it is. -/
theorem safeFor_of_halted {code : Int} (count : Nat) (halted : state.status = .halted code)
    (isGood : good state.registers.pc state.registers.fp state.memory live) :
    executable.SafeFor good count state live := by
  have same : executable.track state live = live := by rw [track, halted]
  induction count with
  | zero => trivial
  | succ count hypothesis =>
    refine safeFor_of_step isGood (step_of_halted halted) ?_
    rw [same]
    exact hypothesis

variable (executable good) in
/-- Watch a machine for states that are not good and for irregular faults. -/
def safety : Watch executable where
  holds := executable.SafeFor good
  good := good
  ends outcome _ := ∀ fault, outcome = .faulted fault → fault.Regular
  counted := True
  zero _ := trivial
  mono le safe := safe.mono le
  step isGood stepped later := safeFor_of_step isGood stepped later
  halt isGood stepped halted goodAfter _ :=
    safeFor_of_step isGood stepped (safeFor_of_halted _ halted goodAfter)
  fault {count _ _ _ _} isGood stepped regular := by
    cases count with
    | zero => trivial
    | succ count =>
      refine ⟨isGood, ?_⟩
      rw [stepped]
      exact regular _ rfl
  overflow fault same := by
    cases same
    trivial
  limit _ fault same := by
    cases same
    trivial

/-- A machine that is safe for any number of steps is good wherever it gets. -/
theorem Traced.safeFor {input : List UInt8} {outputLimit : Option Nat}
    (traced : executable.Traced input outputLimit state live)
    (safe : ∀ count, executable.SafeFor good count (executable.start input outputLimit) []) :
    ∀ count, executable.SafeFor good count state live := by
  induction traced with
  | start => exact safe
  | step before stepped hypothesis =>
    intro count
    have later := (hypothesis (count + 1)).2
    rw [stepped] at later
    exact later

end Executable

/-- Assignments go to variables, addresses are taken of variables, and lines are not
read into memory. -/
def Rule.confined (program : Program) : Rule where
  expr
    | _, .unary _ .addressOf operand => operand.IsVariable
    | _, .call id _ _ => ∀ function ∈ program.functions, function.isExternal = true →
      program.definition? id = some function.id → Service.ofName? function.name ≠ some .getstr
    | _, _ => True
  stmt
    | _, .assign _ target _ => target.IsVariable
    | _, _ => True
  function _ _ := True
  declared _ _ := True

instance (program : Program) : (Rule.confined program).Checkable where
  expr
    | _, .unary _ .addressOf operand => inferInstanceAs (Decidable operand.IsVariable)
    | _, .call id _ _ => inferInstanceAs (Decidable (∀ function ∈ program.functions,
        function.isExternal = true → program.definition? id = some function.id →
          Service.ofName? function.name ≠ some .getstr))
    | _, .unary _ .not _ | _, .unary _ .plus _ | _, .unary _ .minus _ | _, .unary _ .valueAt _
    | _, .atom _ _ | _, .var _ _ | _, .binary _ _ _ _ => .isTrue trivial
  stmt
    | _, .assign _ target _ => inferInstanceAs (Decidable target.IsVariable)
    | _, .expr _ _ | _, .cond _ _ _ _ | _, .loop _ _ _ | _, .block _ _ _ => .isTrue trivial
  function _ _ := .isTrue trivial
  declared _ _ := .isTrue trivial

/-- What keeps frames intact: lexical scoping with matching arguments, variables that
have room for a word, declared services with their own parameters, and confinement. -/
def Rule.disciplined (program : Program) : Rule :=
  ((linked program).and (matched program)).and
    ((sized.and (services Service.all)).and (confined program))

instance (program : Program) : (Rule.disciplined program).Checkable :=
  inferInstanceAs ((((Rule.linked program).and (Rule.matched program)).and
    ((Rule.sized.and (Rule.services Service.all)).and (Rule.confined program))).Checkable)

/-- Disciplined programs have no variables without words. -/
theorem Rule.disciplined_sized (program : Program) : (disciplined program).Implies .sized :=
  ⟨fun _ _ _ => trivial, fun _ _ _ => trivial, fun _ _ _ => trivial, fun _ _ own => own.2.1.1⟩

namespace Site

section Takes

variable {executable : Executable} (watch : Watch executable) (site : Site) (count : Nat)

/-- Code that leaves a number of bytes on the stack and does no harm. -/
def Takes (bytes start stop : Int) : Prop :=
  ∀ sp memory ambient, site.Here executable sp memory ambient →
    (∀ after later, site.Stable executable sp memory after →
      site.Here executable (sp - bytes) after later →
      watch.At count site.live stop site.fp (sp - bytes) after later) →
    watch.At count site.live start site.fp sp memory ambient

variable {watch site count}

/-- No code takes no steps. -/
theorem Takes.nothing {start : Int} : site.Takes watch count 0 start start := by
  intro sp memory ambient here next
  rw [Int.sub_zero] at next
  exact next memory ambient (.refl _ _) here

/-- One piece of code after another. -/
theorem Takes.trans {first second start middle stop : Int} (nonneg : 0 ≤ first)
    (taken : site.Takes watch count first start middle)
    (more : site.Takes watch count second middle stop) :
    site.Takes watch count (first + second) start stop := by
  intro sp memory ambient here next
  refine taken sp memory ambient here fun between later stable moved => ?_
  refine more _ between later moved fun after last again stays => ?_
  rw [show sp - first - second = sp - (first + second) by omega] at stays ⊢
  exact next after last (stable.trans (again.mono (by omega))) stays

end Takes

section Calls

variable (executable : Executable) (program : Program) (layout : Layout) (link : Linkage)

/-- The frames of a site are those of the latest activations. -/
structure Tracked (site : Site) : Prop where
  bodies : ∀ own ∈ site.chain, own.1.isExternal = false ∧
    ∃ home, Scope.Rooted program layout (.disciplined program) link home own.1
  recent : ∀ own ∈ site.chain, ∃ activation,
    site.live.find? (fun activation => activation.entry = link.entry own.1.id) = some activation ∧
      own.2 = activation.base

/-- Watching a program for frames that are not intact. -/
abbrev integrity : Watch executable := executable.safety (link.AnchoredAt program)

/-- For a number of steps calls do no harm. -/
def CallsSafe (count : Nat) : Prop :=
  ∀ (site : Site) (home : Scope) (function : FunDef) (outer : List (FunDef × Int)) (pc base : Int)
    (memory : Memory) (ambient : Ambient),
    site.Sound executable program layout link (integrity executable program link) →
    site.Tracked program layout link → site.Here executable (base - 4) memory ambient →
    Ready program layout (.disciplined program) link site home function outer base memory →
    site.start ≤ pc ∧ pc < site.stop → link.slots[pc]? = some .call →
    memory.word (base - 4) = Word.ofInt (link.entry function.id) →
    (function.isExternal = true → Service.ofName? function.name ≠ some .getstr) →
    (∀ after later,
      site.Stable executable (base + (layout.frameOf function.id).parsSize) memory after →
      site.Here executable (base + (layout.frameOf function.id).parsSize - 4) after later →
      (integrity executable program link).At count site.live (pc + 1) site.fp
        (base + (layout.frameOf function.id).parsSize - 4) after later) →
    (integrity executable program link).At count site.live pc site.fp (base - 4) memory ambient

end Calls

section Trees

variable {executable : Executable} {program : Program} {layout : Layout} {link : Linkage}
  {site : Site} {scope : Scope}

/-- The address of a variable that is used. -/
theorem exists_address_of_use {id : NodeId} {name : String}
    (installed : Installed program layout (.disciplined program) executable link)
    (active : site.Active executable program layout (.disciplined program) link
      (integrity executable program link) scope)
    (obeys : (Expr.var id name).Obeys (.disciplined program) scope) :
    ∃ target address, program.definition? id = some target ∧
      site.address? program layout link scope target = some address ∧
      site.Reaches executable address := by
  obtain ⟨⟨⟨target, visible, linked⟩, -⟩, -⟩ := obeys
  obtain ⟨address, placed, reaches⟩ := exists_address installed (Rule.disciplined_sized program)
    active.sound.toGrounded active.staged active.functions visible
  exact ⟨target, address, linked, placed, reaches⟩

/-- An operator on the word on top of the stack. -/
theorem takes_unary {rule : Rule} {watch : Watch executable} {count : Nat} {start middle stop : Int}
    {op : UnaryOper} (installed : Installed program layout rule executable link)
    (sound : site.Sound executable program layout link watch)
    (fetch : link.slots[middle]? = some (.unary op)) (stops : stop = middle + 1)
    (covered : start ≤ middle ∧ site.start ≤ start ∧ stop ≤ site.stop)
    (operand : site.Takes watch count 4 start middle) : site.Takes watch count 4 start stop := by
  intro sp memory ambient here next
  have below := here.below
  refine operand sp memory ambient here fun between later stable moved => ?_
  refine at_unary installed sound moved ⟨by omega, by omega⟩ fetch (by omega)
    fun after quiet _ stays => ?_
  rw [← stops]
  rw [show sp - 4 + 4 = sp by omega] at quiet
  exact next after later (stable.trans (stable_of_quiet quiet)) stays

mutual

/-- The code of an expression leaves one word. -/
theorem takes_value {count : Nat} {start stop : Int}
    (installed : Installed program layout (.disciplined program) executable link)
    (active : site.Active executable program layout (.disciplined program) link
      (integrity executable program link) scope)
    (tracked : site.Tracked program layout link)
    (calls : CallsSafe executable program layout link count) : (expr : Expr) →
    expr.Obeys (.disciplined program) scope →
    link.ValueAt (scope.context program layout) expr start stop →
    site.start ≤ start ∧ stop ≤ site.stop →
    site.Takes (integrity executable program link) count 4 start stop
  | .atom id atom, _, held, covered => by
    obtain ⟨fetch, rfl⟩ := held
    intro sp memory ambient here next
    dsimp only [Opcode.size] at covered
    exact at_push installed.slots active.sound here ⟨covered.1, by omega⟩ fetch
      fun after quiet _ moved => next after ambient (stable_of_quiet quiet) moved
  | .var id name, obeys, ⟨middle, address, fetch, stops⟩, covered => by
    have stopAt : stop = middle + 1 := stops
    intro sp memory ambient here next
    obtain ⟨target, place, linked, placed, reaches⟩ :=
      exists_address_of_use installed active obeys
    refine at_fetch installed active.sound here ⟨covered.1, by omega⟩ address fetch (by omega) linked
      placed reaches fun after quiet _ moved => ?_
    rw [← stopAt]
    exact next after ambient (stable_of_quiet quiet) moved
  | .unary _ .plus operand, ⟨_, obeys⟩, held, covered =>
    takes_value installed active tracked calls operand obeys held covered
  | .unary _ .not operand, ⟨_, obeys⟩, ⟨middle, held, fetch, stops⟩, covered => by
    have stopAt : stop = middle + 1 := stops
    exact takes_unary installed active.sound fetch stopAt ⟨ValueAt.le _ held, covered⟩
      (takes_value installed active tracked calls operand obeys held ⟨covered.1, by omega⟩)
  | .unary _ .minus operand, ⟨_, obeys⟩, ⟨middle, held, fetch, stops⟩, covered => by
    have stopAt : stop = middle + 1 := stops
    exact takes_unary installed active.sound fetch stopAt ⟨ValueAt.le _ held, covered⟩
      (takes_value installed active tracked calls operand obeys held ⟨covered.1, by omega⟩)
  | .unary _ .valueAt operand, ⟨_, obeys⟩, ⟨middle, held, fetch, stops⟩, covered => by
    have stopAt : stop = middle + 1 := stops
    have lies := ValueAt.le _ held
    intro sp memory ambient here next
    have below := here.below
    refine takes_value installed active tracked calls operand obeys held ⟨covered.1, by omega⟩ sp memory
      ambient here
      fun between later stable moved => ?_
    refine at_load installed active.sound moved ⟨by omega, by omega⟩ fetch (by omega)
      (fun _ after quiet _ stays => ?_) fun _ state _ _ fault same => by cases same; trivial
    rw [← stopAt]
    rw [show sp - 4 + 4 = sp by omega] at quiet
    exact next after later (stable.trans (stable_of_quiet quiet)) stays
  | .unary _ .addressOf operand, ⟨own, obeys⟩, held, covered => by
    cases operand with
    | var id name =>
      intro sp memory ambient here next
      obtain ⟨target, place, linked, placed, -⟩ := exists_address_of_use installed active obeys
      exact at_variable installed active.sound here covered held linked placed
        fun after quiet _ moved => next after ambient (stable_of_quiet quiet) moved
    | atom _ _ | call _ _ _ | unary _ _ _ | binary _ _ _ _ => exact own.2.2.elim
  | .binary _ op first second, ⟨_, obeysFirst, obeysSecond⟩,
      ⟨middle, later, heldFirst, heldSecond, fetch, stops⟩, covered => by
    have stopAt : stop = later + 1 := stops
    have lies := ValueAt.le _ heldFirst
    have liesSecond := ValueAt.le _ heldSecond
    intro sp memory ambient here next
    have below := here.below
    have operands := (takes_value installed active tracked calls first obeysFirst heldFirst
      ⟨covered.1, by omega⟩).trans (by omega)
      (takes_value installed active tracked calls second obeysSecond heldSecond ⟨by omega, by omega⟩)
    refine operands sp memory ambient here fun between ambient' stable moved => ?_
    refine at_binary installed active.sound moved ⟨by omega, by omega⟩ fetch (by omega)
      (fun value _ after quiet _ stays => ?_) fun _ state _ _ fault same => by cases same; trivial
    rw [show sp - (4 + 4) + 8 = sp by omega] at quiet
    rw [show sp - (4 + 4) + 4 = sp - 4 by omega] at stays ⊢
    rw [← stopAt]
    exact next after ambient' (stable.trans (stable_of_quiet quiet)) stays
  | .call id name args, ⟨own, obey⟩, ⟨middle, heldArgs, callee⟩, covered => by
    obtain ⟨⟨⟨function, visible, linked⟩, other, isOther, sameLink, lengths⟩, -, allowed⟩ := own
    obtain ⟨home, hops, around, isOwn⟩ := Scope.exists_around_of_function visible
    have rooted := (active.staged.around around).rooted installed isOwn
    have member := Program.mem_functions_of_nesting rooted.nested
    have sameId : function.id = other.id := Option.some.inj (linked.symm.trans sameLink)
    obtain rfl := Program.functions_unique installed.distinct member isOther sameId
    have parsSize := (rooted.sizes installed.arranged).1
    have lies := ArgsAt.le _ heldArgs
    have liesCallee := callee.le
    intro sp memory ambient here next
    have below := here.below
    refine takes_args installed active tracked calls args obey heldArgs ⟨covered.1, by omega⟩ sp memory
      ambient here
      fun between later stable moved => ?_
    refine at_callee installed active.sound moved ⟨by omega, covered.2⟩ callee linked active.staged
      active.inFunction active.functions around isOwn (by omega)
      fun ready quiet isReady top fetch within stays => ?_
    have back : sp - 4 * (args.length : Int) - 4 + (layout.frameOf function.id).parsSize = sp := by
      omega
    refine calls site home function _ (stop - 1) _ ready later active.sound tracked stays isReady
      within fetch top (fun external => allowed function member external linked)
      fun after last again returned => ?_
    rw [back] at again returned ⊢
    rw [show stop - 1 + 1 = stop by omega]
    refine next after last (stable.trans ?_) returned
    exact (stable_of_quiet (quiet.mono (by omega))).trans again

/-- The code of arguments leaves a word for each. -/
theorem takes_args {count : Nat} {start stop : Int}
    (installed : Installed program layout (.disciplined program) executable link)
    (active : site.Active executable program layout (.disciplined program) link
      (integrity executable program link) scope)
    (tracked : site.Tracked program layout link)
    (calls : CallsSafe executable program layout link count) : (args : List Expr) →
    ExprsObey (.disciplined program) scope args →
    link.ArgsAt (scope.context program layout) args start stop →
    site.start ≤ start ∧ stop ≤ site.stop →
    site.Takes (integrity executable program link) count (4 * args.length) start stop
  | [], _, held, _ => by
    obtain rfl : stop = start := held
    exact .nothing
  | arg :: rest, ⟨obeysFirst, obeyRest⟩, ⟨middle, heldRest, heldFirst⟩, covered => by
    have lies := ArgsAt.le _ heldRest
    have liesFirst := ValueAt.le _ heldFirst
    have taken := (takes_args installed active tracked calls rest obeyRest heldRest
      ⟨covered.1, by omega⟩).trans (by omega)
      (takes_value installed active tracked calls arg obeysFirst heldFirst ⟨by omega, covered.2⟩)
    rw [show 4 * ((arg :: rest).length : Int) = 4 * rest.length + 4 by
      rw [List.length_cons]; omega]
    exact taken

end

end Trees

section Statements

variable {executable : Executable} {program : Program} {layout : Layout} {link : Linkage}
  {site : Site}

/-- A conditional whose test and branches do no harm. -/
theorem takes_cond {rule : Rule} {watch : Watch executable} {count : Nat}
    {start tested yesStart yesStop noStart stop : Int}
    (installed : Installed program layout rule executable link)
    (sound : site.Sound executable program layout link watch)
    (covered : site.start ≤ start ∧ stop ≤ site.stop)
    (branch : link.Holds tested
      [.push (Word.ofInt noStart), .push (Word.ofInt yesStart), .cjmp] yesStart)
    (jump : link.Holds yesStop [.push (Word.ofInt stop), .ujmp] noStart)
    (order : start ≤ tested ∧ yesStart ≤ yesStop ∧ noStart ≤ stop)
    (test : site.Takes watch count 4 start tested)
    (yes : site.Takes watch count 0 yesStart yesStop)
    (no : site.Takes watch count 0 noStart stop) : site.Takes watch count 0 start stop := by
  have liesBranch := branch.le
  have liesJump := jump.le
  intro sp memory ambient here next
  rw [Int.sub_zero] at next
  have below := here.below
  refine test sp memory ambient here fun between later stable moved => ?_
  refine at_branch installed sound moved ⟨by omega, by omega⟩ branch (by omega)
    ⟨by omega, by omega⟩ ⟨by omega, by omega⟩ fun branched quiet stays => ?_
  rw [show sp - 4 + 4 = sp by omega] at stays ⊢
  have stableBranch : site.Stable executable sp memory branched :=
    stable.trans (stable_of_quiet (quiet.mono (by omega)))
  split
  · refine yes sp branched later stays fun last final stableYes done => ?_
    rw [Int.sub_zero] at done ⊢
    refine at_jump installed sound done ⟨by omega, by omega⟩ jump ⟨by omega, by omega⟩
      fun ended quietJump finished => ?_
    refine (next ended final ?_ finished).mono (Nat.sub_le _ _)
    exact stableBranch.trans (stableYes.trans (stable_of_quiet quietJump))
  · refine no sp branched later stays fun last final stableNo done => ?_
    rw [Int.sub_zero] at done ⊢
    exact next last final (stableBranch.trans stableNo) done

/-- A loop whose test and body do no harm. Every round takes a step. -/
theorem takes_loop {rule : Rule} {watch : Watch executable}
    (installed : Installed program layout rule executable link)
    (sound : site.Sound executable program layout link watch)
    (counted : watch.counted) {start tested bodyStart bodyStop stop : Int}
    (covered : site.start ≤ start ∧ stop ≤ site.stop)
    (branch : link.Holds tested
      [.push (Word.ofInt stop), .push (Word.ofInt bodyStart), .cjmp] bodyStart)
    (back : link.Holds bodyStop [.push (Word.ofInt start), .ujmp] stop)
    (order : start ≤ tested ∧ bodyStart ≤ bodyStop) (count : Nat)
    (test : ∀ fewer ≤ count, site.Takes watch fewer 4 start tested)
    (body : ∀ fewer ≤ count, site.Takes watch fewer 0 bodyStart bodyStop) :
    site.Takes watch count 0 start stop := by
  have first := branch.le
  have last := back.le
  induction count with
  | zero => exact fun _ _ _ _ _ steps => watch.zero counted
  | succ count hypothesis =>
    intro sp memory ambient here next
    have below := here.below
    refine test _ (Nat.le_refl _) sp memory ambient here fun afterTest later stable moved => ?_
    refine at_branch installed sound moved ⟨by omega, by omega⟩ branch (by omega) ⟨by omega, by omega⟩
      ⟨by omega, by omega⟩ fun branched quiet stays => ?_
    rw [show sp - 4 + 4 = sp by omega] at stays ⊢
    have stableBranch : site.Stable executable sp memory branched :=
      stable.trans (stable_of_quiet (quiet.mono (by omega)))
    split
    · refine body _ (Nat.le_refl _) sp branched later stays fun round final stableRound done => ?_
      rw [Int.sub_zero] at done ⊢
      refine at_jump installed sound done ⟨by omega, by omega⟩ back ⟨by omega, by omega⟩
        fun again quietJump returned => ?_
      refine (hypothesis (fun fewer le => test fewer (by omega)) (fun fewer le => body fewer (by omega))
        sp again final returned fun after ambient' stableAfter ends => ?_)
      refine (next after ambient' ?_ ends).mono (Nat.le_succ _)
      exact stableBranch.trans (stableRound.trans ((stable_of_quiet quietJump).trans stableAfter))
    · rw [Int.sub_zero] at next
      exact next branched later stableBranch stays

mutual

/-- The code of a statement leaves nothing, or the value of the function. -/
theorem takes_stmt {scope : Scope} {tail : Bool} {before after : Layout.Extent} {start stop : Int}
    (installed : Installed program layout (.disciplined program) executable link)
    (active : site.Active executable program layout (.disciplined program) link
      (integrity executable program link) scope)
    (tracked : site.Tracked program layout link) (count : Nat)
    (calls : ∀ fewer ≤ count, CallsSafe executable program layout link fewer) : (stmt : Stmt) →
    scope.Hosts program layout (.disciplined program) stmt before after →
    link.StmtAt (scope.context program layout) tail stmt start stop →
    site.start ≤ start ∧ stop ≤ site.stop →
    site.Takes (integrity executable program link) count
      (if tail && stmt.leavesValue then 4 else 0) start stop
  | .expr id value, hosts, ⟨middle, held, rest⟩, covered => by
    have lies := ValueAt.le _ held
    have liesRest := rest.le
    have taken := takes_value installed active tracked (calls count (Nat.le_refl _)) value
      hosts.obeys.2 held ⟨covered.1, by omega⟩
    cases tail with
    | true =>
      obtain rfl : stop = middle := rest
      exact taken
    | false =>
      intro sp memory ambient here next
      have below := here.below
      refine taken sp memory ambient here fun between later stable moved => ?_
      refine at_discard installed active.sound moved ⟨by omega, covered.2⟩ rest (by omega)
        fun last quiet stays => ?_
      rw [show sp - 4 + 4 = sp - 0 by omega] at stays ⊢
      exact next last later (stable.trans (stable_of_quiet (quiet.mono (by omega)))) stays
  | .assign id target source, hosts, ⟨middle, later, heldSource, heldTarget, fetch, stops⟩,
      covered => by
    obtain ⟨own, obeysTarget, obeysSource⟩ := hosts.obeys
    have stopAt : stop = later + 1 := stops
    have lies := ValueAt.le _ heldSource
    have liesTarget := heldTarget.le
    rw [show (tail && (Stmt.assign id target source).leavesValue) = false from Bool.and_false _]
    cases target with
    | var use name =>
      intro sp memory ambient here next
      have below := here.below
      refine takes_value installed active tracked (calls count (Nat.le_refl _)) source obeysSource
        heldSource ⟨covered.1, by omega⟩ sp memory ambient here fun between final stable moved => ?_
      obtain ⟨target, place, linked, placed, reaches⟩ :=
        exists_address_of_use installed active obeysTarget
      refine at_assign installed active.sound moved ⟨by omega, by omega⟩ heldTarget fetch (by omega)
        linked placed reaches (by omega) fun pushed last quiet put stays => ?_
      rw [show sp - 4 + 4 = sp - 0 by omega] at stays ⊢
      rw [← stopAt]
      refine next last final (stable.trans ?_) stays
      exact (stable_of_quiet (quiet.mono (by omega))).trans (stable_of_put put reaches.apart)
    | atom _ _ | call _ _ _ | unary _ _ _ | binary _ _ _ _ => exact own.2.2.elim
  | .cond id test yes no, hosts,
      ⟨tested, yesStart, yesStop, noStart, heldTest, branch, heldYes, jump, heldNo⟩, covered => by
    obtain ⟨obeysTest, middle, hostsYes, hostsNo⟩ := hosts.cond installed.arranged
    have lies := ValueAt.le _ heldTest
    have liesBranch := branch.le
    have liesYes := StmtsAt.le _ heldYes
    have liesJump := jump.le
    have liesNo := StmtsAt.le _ heldNo
    have onYes := takes_stmts installed active tracked count calls yes hostsYes heldYes
      ⟨by omega, by omega⟩
    have onNo := takes_stmts installed active tracked count calls no hostsNo heldNo
      ⟨by omega, by omega⟩
    rw [Bool.false_and] at onYes onNo
    rw [show (tail && (Stmt.cond id test yes no).leavesValue) = false from Bool.and_false _]
    exact takes_cond installed active.sound covered branch jump ⟨lies, liesYes, liesNo⟩
      (takes_value installed active tracked (calls count (Nat.le_refl _)) test obeysTest heldTest
        ⟨covered.1, by omega⟩) onYes onNo
  | .loop id test body, hosts,
      ⟨tested, bodyStart, bodyStop, heldTest, branch, heldBody, back⟩, covered => by
    obtain ⟨obeysTest, hostsBody⟩ := hosts.loop
    have lies := ValueAt.le _ heldTest
    have liesBranch := branch.le
    have liesBody := StmtsAt.le _ heldBody
    have liesBack := back.le
    rw [show (tail && (Stmt.loop id test body).leavesValue) = false from Bool.and_false _]
    refine takes_loop installed active.sound trivial covered branch back ⟨lies, liesBody⟩ count
      (fun fewer le => ?_) fun fewer le => ?_
    · exact takes_value installed active tracked (calls fewer le) test obeysTest heldTest
        ⟨covered.1, by omega⟩
    · have round := takes_stmts installed active tracked fewer
        (fun least le' => calls least (Nat.le_trans le' le)) body hostsBody heldBody
        ⟨by omega, by omega⟩
      rwa [Bool.false_and] at round
  | .block id defs body, hosts, ⟨middle, heldLocals, heldBody, functions⟩, covered => by
    have lies := heldLocals.le
    have liesBody := StmtsAt.le _ heldBody
    obtain ⟨between, ⟨label, laid⟩, data, staged, ⟨high, owner, head, low⟩, hostsBody⟩ :=
      hosts.block installed.arranged active.staged functions
    have innermost := active.innermost head
    have inside : site.Active executable program layout (.disciplined program) link
        (integrity executable program link) (.block defs scope) :=
      ⟨active.sound, staged, active.functions, active.inFunction⟩
    have taken := takes_stmts installed inside tracked count calls body hostsBody heldBody
      ⟨by omega, covered.2⟩
    intro sp memory ambient here next
    refine at_locals installed active.sound here ⟨covered.1, by omega⟩ heldLocals laid
      (fun declared member => (Rule.disciplined_sized program).declared _ _
        (staged.2.1 declared member).1) (fun declared member => (staged.2.1 declared member).2) data
      innermost low high fun filled change _ moved => ?_
    have stands := active.sound.frames _ (List.mem_of_mem_head? innermost)
    refine taken sp filled ambient moved fun last final stable done =>
      next last final ((stable_of_filled change stands low high).trans stable) done

/-- The code of statements leaves nothing, or the value of the function. -/
theorem takes_stmts {scope : Scope} {tail : Bool} {before after : Layout.Extent} {start stop : Int}
    (installed : Installed program layout (.disciplined program) executable link)
    (active : site.Active executable program layout (.disciplined program) link
      (integrity executable program link) scope)
    (tracked : site.Tracked program layout link) (count : Nat)
    (calls : ∀ fewer ≤ count, CallsSafe executable program layout link fewer) :
    (stmts : List Stmt) →
    scope.HostsAll program layout (.disciplined program) stmts before after →
    link.StmtsAt (scope.context program layout) tail stmts start stop →
    site.start ≤ start ∧ stop ≤ site.stop →
    site.Takes (integrity executable program link) count
      (if tail && leavesValue stmts then 4 else 0) start stop
  | [], _, held, _ => by
    obtain rfl : stop = start := held
    rw [show (tail && leavesValue []) = false from Bool.and_false _]
    exact .nothing
  | stmt :: rest, hosts, ⟨middle, held, heldRest⟩, covered => by
    have lies := StmtAt.le _ held
    have liesRest := StmtsAt.le _ heldRest
    obtain ⟨between, hostsOwn, hostsRest⟩ := hosts.cons installed.arranged
    have first := takes_stmt installed active tracked count calls stmt hostsOwn held
      ⟨covered.1, by omega⟩
    have second := takes_stmts installed active tracked count calls rest hostsRest heldRest
      ⟨by omega, covered.2⟩
    cases rest with
    | nil =>
      obtain rfl : stop = middle := heldRest
      simpa [leavesValue] using first
    | cons next more =>
      simp only [List.isEmpty_cons, Bool.and_false, Bool.false_and, Bool.false_eq_true,
        if_false] at first
      simpa [leavesValue] using first.trans (Int.le_refl 0) second

end

end Statements

section Bodies

variable {executable : Executable} {program : Program} {layout : Layout} {link : Linkage}
  {site : Site}

/-- Following access links from one frame of a site leads to another. -/
theorem follow_eq {rule : Rule} (installed : Installed program layout rule executable link)
    (grounded : site.Grounded executable program layout link) {memory : Memory}
    (stable : site.Stable executable site.bottom site.origin memory) {index hops : Nat}
    {own outer : FunDef × Int} (found : site.chain[index]? = some own)
    (reached : site.chain[index + hops]? = some outer) : memory.follow hops own.2 = outer.2 := by
  induction hops generalizing index own with
  | zero =>
    rw [Nat.add_zero, found] at reached
    cases reached
    rfl
  | succ hops hypothesis =>
    have longer := (List.getElem?_eq_some_iff.mp reached).1
    have next : site.chain[index + 1]? = some site.chain[index + 1] :=
      List.getElem?_eq_getElem (by omega)
    have stands := grounded.frames _ (List.mem_of_getElem? next)
    have above := stands.above
    have inside := stands.inside
    have header := stands.header
    have parsSize := stands.link
    have bounds := zero_le_bottom installed grounded
    simp only [Frame.headerSize] at header
    rw [Memory.follow, word_base grounded stable found next,
      installed.arranged.toInt_ofInt (by omega) (by omega)]
    exact hypothesis next (by rwa [Nat.add_right_comm])

/-- The code of two functions does not overlap, so that no address is in both. -/
theorem eq_of_place {rule : Rule} (installed : Installed program layout rule executable link)
    {first second : FunDef} (inFirst : first ∈ program.functions)
    (firstBody : first.isExternal = false) (inSecond : second ∈ program.functions)
    (secondBody : second.isExternal = false) {place : Int}
    (isFirst : link.entry first.id ≤ place ∧ place < link.stop first.id)
    (isSecond : link.entry second.id ≤ place ∧ place < link.stop second.id) : first = second := by
  refine Program.functions_unique installed.distinct inFirst inSecond ?_
  refine Classical.byContradiction fun different => ?_
  rcases installed.arranged.codeApart first inFirst firstBody second inSecond secondBody different
    with before | before
  · omega
  · omega

variable {home : Scope} {function : FunDef} {outer : List (FunDef × Int)} {pc base sp : Int}
  {memory origin : Memory} {ambient : Ambient}

/-- The latest activations after a call. -/
theorem Entered.tracked (installed : Installed program layout (.disciplined program) executable link)
    (tracked : site.Tracked program layout link)
    (entered : Entered executable program layout (.disciplined program) link site home function
      outer base pc memory origin) :
    (site.entered layout link function outer base pc origin).Tracked program layout link := by
  constructor
  case bodies =>
    intro own member
    rcases List.mem_cons.mp member with rfl | member
    · exact ⟨entered.hasBody, home, entered.rooted⟩
    · exact tracked.bodies own (entered.outward own member)
  case recent =>
    intro own member
    rcases List.mem_cons.mp member with rfl | isOuter
    · exact ⟨_, List.find?_cons_of_pos (by simp), rfl⟩
    · obtain ⟨activation, found, same⟩ := tracked.recent own (entered.outward own isOuter)
      refine ⟨activation, ?_, same⟩
      rw [show (site.entered layout link function outer base pc origin).live = _ :: site.live from rfl,
        List.find?_cons_of_neg, found]
      -- The function differs from those around it, and so does its entry.
      intro sameEntry
      obtain ⟨ownBody, ownHome, ownRooted⟩ := tracked.bodies own (entered.outward own isOuter)
      have enclosing : own.1 ∈ home.enclosing := by
        rw [← entered.functions]
        exact List.mem_map_of_mem isOuter
      have ownLong := ownRooted.entry_le ownBody
      have long := entered.rooted.entry_le entered.hasBody
      have entries : link.entry function.id = link.entry own.1.id := by simpa using sameEntry
      have equal := eq_of_place installed (Program.mem_functions_of_nesting ownRooted.nested) ownBody
        (Program.mem_functions_of_nesting entered.rooted.nested) entered.hasBody
        ⟨Int.le_refl _, by omega⟩ ⟨by omega, by omega⟩
      refine Program.not_mem_around installed.distinct entered.rooted.nested ?_
      rw [← equal]
      exact List.mem_map_of_mem enclosing

/-- In the body of a called function its frames are anchored. -/
theorem Entered.sound (installed : Installed program layout (.disciplined program) executable link)
    (sound : site.Sound executable program layout link (integrity executable program link))
    (tracked : site.Tracked program layout link) (here : site.Here executable sp memory ambient)
    (within : site.start ≤ pc ∧ pc < site.stop)
    (entered : Entered executable program layout (.disciplined program) link site home function
      outer base (pc + 1) memory origin) :
    (site.entered layout link function outer base (pc + 1) origin).Sound executable program layout
      link (integrity executable program link) := by
  have grounded := entered.grounded installed sound.toGrounded here
  refine ⟨grounded, fun place after low high stable around other nested hasBody start stop => ?_⟩
  dsimp only [Site.entered] at low high
  obtain rfl : function = other :=
    eq_of_place installed (Program.mem_functions_of_nesting entered.rooted.nested) entered.hasBody
      (Program.mem_functions_of_nesting nested) hasBody ⟨by omega, high⟩ ⟨by omega, stop⟩
  cases Program.nesting_unique installed.distinct entered.rooted.nested nested rfl
  constructor
  case own =>
    exact ⟨_, rfl, rfl, rfl, entered.header installed sound.toGrounded here within stable⟩
  case links =>
    intro hops reached found
    rw [← entered.functions] at found
    have named : ((function, base) :: outer)[hops]?.map Prod.fst = some reached := by
      rw [← List.getElem?_map]
      exact found
    obtain ⟨frame, isFrame, rfl⟩ := Option.map_eq_some_iff.mp named
    obtain ⟨activation, latest, same⟩ :=
      (entered.tracked installed tracked).recent frame (List.mem_of_getElem? isFrame)
    refine ⟨activation, latest, Eq.trans ?_ same⟩
    exact follow_eq installed grounded stable (rfl : _ = some (function, base))
      (by rw [Nat.zero_add]; exact isFrame)

/-- The code of a function up to its return leaves the value of the function. -/
theorem takes_body {count : Nat}
    (installed : Installed program layout (.disciplined program) executable link)
    (active : site.Active executable program layout (.disciplined program) link
      (integrity executable program link) (.enter function home))
    (tracked : site.Tracked program layout link)
    (calls : ∀ fewer ≤ count, CallsSafe executable program layout link fewer)
    (starts : site.start = link.entry function.id + 6) (stops : site.stop = link.stop function.id)
    (hasBody : function.isExternal = false) :
    ∃ finish, site.Takes (integrity executable program link) count 4 site.start finish ∧
      site.start ≤ finish ∧ link.Holds finish
        [.push (Word.ofInt ((layout.frameOf function.id).parsSize - 4)), .retn]
        (link.stop function.id) := by
  have rooted := active.staged.1
  obtain ⟨bodyStop, finish, -, -, held, value, returns⟩ := rooted.parts hasBody
  obtain ⟨first, last, -, hosts⟩ := rooted.hosts
  have lies := StmtsAt.le _ held
  have liesValue := value.le
  have liesReturn := returns.le
  have taken := takes_stmts installed active tracked count calls function.body hosts held
    ⟨by omega, by omega⟩
  rw [Bool.true_and] at taken
  rw [starts]
  refine ⟨finish, ?_, by omega, returns⟩
  cases leaves : leavesValue function.body with
  | true =>
    rw [leaves] at taken value
    obtain rfl : finish = bodyStop := value
    exact taken
  | false =>
    rw [leaves] at taken value
    obtain ⟨fetch, ends⟩ := value
    have finishAt : finish = bodyStop + 5 := ends
    intro sp memory ambient here next
    refine taken sp memory ambient here fun between later stable moved => ?_
    rw [if_neg Bool.false_ne_true, Int.sub_zero] at moved ⊢
    refine at_push installed.slots active.sound moved ⟨by omega, by omega⟩ fetch
      fun after quiet _ stays => ?_
    rw [← finishAt]
    exact next after later (stable.trans (stable_of_quiet quiet)) stays

/-- Calls do no harm for any number of steps. -/
theorem callsSafe (installed : Installed program layout (.disciplined program) executable link)
    (count : Nat) : CallsSafe executable program layout link count := by
  induction count using Nat.strongRecOn with
  | ind count hypothesis =>
    intro site home function outer pc base memory ambient sound tracked here ready within fetch top
      allowed next
    have parsSize := (ready.rooted.sizes installed.arranged).1
    have room := ready.room
    have member := Program.mem_functions_of_nesting ready.rooted.nested
    cases external : function.isExternal with
    | true =>
      obtain ⟨-, ⟨-, services⟩, -⟩ := (FunDef.obeys_iff.mp ready.rooted.obeys).1
      obtain ⟨service, -, named, arity⟩ := services external
      rw [installed.service function member external service named] at top
      have place : base + (layout.frameOf function.id).parsSize - 4 = base + 4 * service.arity := by
        rw [parsSize, arity]
        omega
      refine at_service installed sound here within fetch (fun same => ?_) top place (by omega)
        (fun after later quiet moved => ?_) (fun _ _ _ same => nomatch same)
        fun fault regular _ _ same => ?_
      · exact allowed external (same ▸ named)
      · rw [show base + (layout.frameOf function.id).parsSize - 4 + 4 =
          base + (layout.frameOf function.id).parsSize by omega] at quiet
        exact next after later (stable_of_quiet quiet) moved
      · cases same
        exact regular
    | false =>
      have long := ready.rooted.entry_le external
      refine at_enter installed sound here ready external within fetch top
        (fun place after low high around other nested hasBody start _ => ?_)
        fun origin entered there => ?_
      · -- The part that sets up the frame belongs to no body.
        obtain rfl : function = other := eq_of_place installed member external
          (Program.mem_functions_of_nesting nested) hasBody ⟨low, by omega⟩ ⟨by omega, by omega⟩
        omega
      cases count with
      | zero => exact fun _ => trivial
      | succ count =>
        rw [Nat.add_sub_cancel]
        have inner := entered.sound installed sound tracked here within
        obtain ⟨finish, taken, low, returns⟩ := takes_body installed (entered.active inner)
          (entered.tracked installed tracked)
          (fun fewer le => hypothesis fewer (Nat.lt_succ_of_le le)) rfl rfl external
        refine taken _ origin ambient there fun last later _ stays => ?_
        refine at_return installed sound here entered inner stays within low returns
          fun middle after _ _ stable returned => ?_
        exact (next after later stable returned).mono (Nat.le_succ _)

end Bodies

end Site

/-- Wherever the machine gets by successful steps, the frames are intact and the next
step does not fault in an irregular way. -/
theorem Linked.anchored {program : Program} {layout : Layout} {main : FunDef} {image : Image}
    {executable : Executable} {link : Linkage}
    (linked : Linked program layout main image executable link)
    (installed : Installed program layout (.disciplined program) executable link)
    (entry : program.entry? = some main) (noParams : main.params = []) (input : List UInt8)
    (outputLimit : Option Nat) (count : Nat) :
    executable.SafeFor (link.AnchoredAt program) count (executable.start input outputLimit) [] := by
  obtain ⟨stop, held, before⟩ := linked.start
  obtain ⟨isTop, hasBody⟩ := Program.mem_functions_of_entry entry
  have staged : (Scope.top program.defs).Staged program layout (.disciplined program) link := rfl
  have rooted := staged.rooted installed isTop
  have member := Program.mem_functions_of_nesting rooted.nested
  have long := rooted.entry_le hasBody
  have least := before main member hasBody
  have inside := (installed.arranged.code main member hasBody).2
  have sound : (Site.initial executable program layout link stop).Sound executable program layout
      link (Site.integrity executable program link) := by
    refine ⟨Site.grounded_initial installed.arranged (by omega), fun pc memory _ high _ => ?_⟩
    intro around function nested hasBody start _
    have first := before function (Program.mem_functions_of_nesting nested) hasBody
    dsimp only [Site.initial] at high
    omega
  have tracked : (Site.initial executable program layout link stop).Tracked program layout link :=
    ⟨nofun, nofun⟩
  have runs : (Site.integrity executable program link).At count [] 0 executable.config.stackTop
      executable.config.stackTop executable.memory
      ⟨executable.dataEnd, input, .empty outputLimit⟩ := by
    refine Site.at_start installed (Rule.disciplined_sized program) entry noParams held sound
      (fun pc memory low fetch ending ready top _ here => ?_) rfl
    have within : 0 ≤ pc ∧ pc < stop := ⟨low, by have := Linkage.Holds.le ending; omega⟩
    refine Site.callsSafe installed count _ _ main [] pc _ memory _ sound tracked here ready within
      fetch top (fun external => ?_) fun after later _ returned => ?_
    · rw [hasBody] at external
      cases external
    · refine Site.at_finish installed sound returned ⟨by dsimp only [Site.initial]; omega, Int.le_refl _⟩
        ending fun _ _ _ fault same => nomatch same
  exact runs 0

/-- In a program that is scoped, passes as many arguments as there are parameters,
assigns to variables alone and does not read lines into memory, frames stay intact.
Wherever the machine gets by successful steps, the next step neither empties the stack
nor leaves the code. In the body of a function the frame pointer is the base of its
latest activation, with the return address and the frame pointer of the caller below
it, and access links lead to the latest activations of the functions around. -/
theorem frames_stay_intact {program : Program} {image : Image} {config : Config}
    {executable : Executable} (distinct : program.Distinct) (plain : program.Obeys .plainNames)
    (obeys : program.Obeys (.disciplined program)) (fits : program.FramesFit)
    (noParams : ∀ main ∈ program.entry?, main.params = [])
    (compiled : program.compile = .ok image) (loaded : image.load config = .ok executable) :
    ∃ layout main link, Layout.ofProgram program = .ok layout ∧ program.entry? = some main ∧
      Linked program layout main image executable link ∧
      ∀ input outputLimit state live, executable.Traced input outputLimit state live →
        (∀ fault final, executable.step.run state = .error fault final →
          fault ≠ .stackUnderflow ∧ ∀ address, fault ≠ .invalidPc address) ∧
        link.AnchoredAt program state.registers.pc state.registers.fp state.memory live := by
  have services : ∀ function ∈ program.functions, function.isExternal = true →
      (Service.ofName? function.name).isSome := by
    intro function member external
    obtain ⟨home, own⟩ := DefsObey.inside program.defs obeys member
    obtain ⟨service, -, named, -⟩ := (FunDef.obeys_iff.mp own).1.2.1.2 external
    rw [named]
    rfl
  obtain ⟨layout, main, link, laid, entry, linked, installed⟩ :=
    exists_installed distinct plain obeys fits services compiled loaded
  refine ⟨layout, main, link, laid, entry, linked, fun input outputLimit state live traced => ?_⟩
  obtain ⟨anchored, next⟩ := traced.safeFor
    (linked.anchored installed entry (noParams main entry) input outputLimit) 1
  refine ⟨fun fault final failed => ?_, anchored⟩
  rw [failed] at next
  exact ⟨fun same => (same ▸ next : Fault.Regular .stackUnderflow),
    fun address same => (same ▸ next : Fault.Regular (.invalidPc address))⟩

/-- The frames of the sample stay intact. -/
theorem frames_stay_intact_sample :
    Program.sample.Distinct ∧ Program.sample.Obeys (.disciplined .sample) ∧
      ∃ image executable layout main link, Program.sample.compile = .ok image ∧
        image.load .standard = .ok executable ∧
        Linked Program.sample layout main image executable link ∧
        ∀ input outputLimit state live, executable.Traced input outputLimit state live →
          link.AnchoredAt .sample state.registers.pc state.registers.fp state.memory live := by
  have distinct : Program.sample.Distinct := by decide +kernel
  have obeys : Program.sample.Obeys (.disciplined .sample) := by decide +kernel
  obtain ⟨image, executable, compiled, loaded⟩ :=
    @Program.exists_executable .sample .standard (by decide +kernel)
  obtain ⟨layout, main, link, -, -, linked, intact⟩ := frames_stay_intact distinct
    (by decide +kernel) obeys (by decide +kernel) (by decide +kernel) compiled loaded
  exact ⟨distinct, obeys, image, executable, layout, main, link, compiled, loaded, linked,
    fun input outputLimit state live traced => (intact input outputLimit state live traced).2⟩

end ScopeStack
