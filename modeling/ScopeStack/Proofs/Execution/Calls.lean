import ScopeStack.Proofs.Execution.Variables

/-!
# Calling functions

A call pushes the arguments, the access link and the address of the function. The
frame of the function starts at the link. It stands below that of the caller, and
its access link leads to the frame of the function around it, which the caller has
within reach. So the called function has a `Site` of its own, `Site.entered`, on
which it runs until it returns. What it has left alone is intact for the caller.
-/

namespace ScopeStack

open Emission Linkage

/-- The number of arguments that a service takes. -/
def Service.arity : Service → Nat
  | .getint => 0
  | _ => 1

/-- A function without a body is one of the given services, and it has the parameters
of this service. -/
def Rule.services (allowed : List Service) : Rule where
  expr _ _ := True
  stmt _ _ := True
  function _ function := function.isExternal = true →
    ∃ service ∈ allowed, Service.ofName? function.name = some service ∧
      function.params.length = service.arity
  declared _ _ := True

instance (allowed : List Service) : (Rule.services allowed).Checkable where
  expr _ _ := .isTrue trivial
  stmt _ _ := .isTrue trivial
  function _ function := inferInstanceAs (Decidable (function.isExternal = true →
    ∃ service ∈ allowed, Service.ofName? function.name = some service ∧
      function.params.length = service.arity))
  declared _ _ := .isTrue trivial

namespace Scope

variable {program : Program} {layout : Layout} {rule : Rule} {link : Linkage} {home : Scope}
  {function : FunDef}

/-- A point below the top level is inside a function. -/
theorem Staged.enclosing_ne_nil (staged : home.Staged program layout rule link)
    (deep : 0 < home.depth) : home.enclosing ≠ [] := by
  cases home with
  | top defs => exact absurd deep (Nat.lt_irrefl 0)
  | enter function outer => exact List.cons_ne_nil _ _
  | block defs outer =>
    obtain ⟨⟨owner, -, -, -, innermost, -⟩, -⟩ := staged
    intro empty
    rw [show outer.enclosing = [] from empty] at innermost
    cases innermost

/-- The extent of the frame of a function. -/
theorem Rooted.sizes {executable : Executable} (arranged : Arranged program layout executable link)
    (rooted : Rooted program layout rule link home function) :
    (layout.frameOf function.id).parsSize = 4 * function.params.length + 4 ∧
      ∃ words : Nat, (layout.frameOf function.id).localsSize = 4 * words ∧
        (layout.frameOf function.id).varsSize = 8 + 4 * words := by
  obtain ⟨label, before, after, laid⟩ := rooted.laid
  have fit := arranged.lengthsFit_function laid (Program.mem_functions_of_nesting rooted.nested)
  obtain ⟨words, localsSize⟩ := laid.exists_words fit
  refine ⟨laid.body.2.1, words, localsSize, ?_⟩
  rw [Frame.localsSize, Frame.headerSize] at localsSize
  omega

/-- The parts of the code of a function: room for its variables, its body, a value if
the body leaves none, and the return. -/
theorem Rooted.parts (rooted : Rooted program layout rule link home function)
    (hasBody : function.isExternal = false) :
    ∃ bodyStop finish,
      link.slots[link.entry function.id]? =
        some (.push (Word.ofInt (-(layout.frameOf function.id).localsSize))) ∧
      link.slots[link.entry function.id + 5]? = some .popn ∧
      link.StmtsAt ((Scope.enter function home).context program layout) true function.body
        (link.entry function.id + 6) bodyStop ∧
      link.Holds bodyStop (if leavesValue function.body then [] else [.push 0]) finish ∧
      link.Holds finish
        [.push (Word.ofInt ((layout.frameOf function.id).parsSize - 4)), .retn]
        (link.stop function.id) := by
  obtain ⟨id, name, params, body⟩ := function
  obtain ⟨bodyStart, bodyStop, ⟨fetchSize, fetchReserve, starts⟩, held, ends⟩ := rooted.code hasBody
  obtain ⟨finish, value, returns⟩ := holds_append.mp ends
  have bodyStarts : bodyStart = link.entry id + 5 + 1 := starts
  rw [show bodyStart = link.entry id + 6 by omega] at held
  exact ⟨bodyStop, finish, fetchSize, fetchReserve, held, value, returns⟩

/-- The code of a function is longer than the part that sets up its frame. -/
theorem Rooted.entry_le (rooted : Rooted program layout rule link home function)
    (hasBody : function.isExternal = false) :
    link.entry function.id + 6 < link.stop function.id := by
  obtain ⟨bodyStop, finish, -, -, held, value, -, -, stops⟩ := rooted.parts hasBody
  have first := StmtsAt.le _ held
  have second := value.le
  have stopAt : link.stop function.id = finish + 5 + 1 := stops
  omega

end Scope

namespace Site

/-- The place where a called function runs. -/
def entered (layout : Layout) (link : Linkage) (site : Site) (function : FunDef)
    (outer : List (FunDef × Int)) (base returnAddress : Int) (origin : Memory) : Site where
  chain := (function, base) :: outer
  fp := base
  bottom := base - (layout.frameOf function.id).varsSize
  start := link.entry function.id + 6
  stop := link.stop function.id
  live := ⟨link.entry function.id, base, returnAddress, site.fp⟩ :: site.live
  kept address := site.kept address ∧ ¬(layout.frameOf function.id).Owns base address
  origin := origin

/-- A function can be called: its arguments and its access link have been pushed. -/
structure Ready (program : Program) (layout : Layout) (rule : Rule) (link : Linkage) (site : Site)
    (home : Scope) (function : FunDef) (outer : List (FunDef × Int)) (base : Int)
    (memory : Memory) : Prop where
  rooted : Scope.Rooted program layout rule link home function
  staged : home.Staged program layout rule link
  functions : outer.map Prod.fst = home.enclosing
  outward : ∀ own ∈ outer, own ∈ site.chain
  chained : memory.Chained (base :: outer.map Prod.snd)
  room : base + (layout.frameOf function.id).parsSize ≤ site.bottom

/-- A function has been called and its frame has been set up. -/
structure Entered (executable : Executable) (program : Program) (layout : Layout) (rule : Rule)
    (link : Linkage) (site : Site) (home : Scope) (function : FunDef) (outer : List (FunDef × Int))
    (base returnAddress : Int) (memory origin : Memory) : Prop
    extends Ready program layout rule link site home function outer base memory where
  hasBody : function.isExternal = false
  quiet : Quiet executable base memory origin
  caller : origin.word (base - 4) = Word.ofInt site.fp
  returns : origin.word (base - 8) = Word.ofInt returnAddress
  data : executable.dataEnd ≤ base - (layout.frameOf function.id).varsSize

section Entered

variable {program : Program} {layout : Layout} {rule : Rule} {executable : Executable}
  {link : Linkage} {site : Site} {sp base returnAddress : Int} {memory origin : Memory}
  {ambient : Ambient} {home : Scope} {function : FunDef} {outer : List (FunDef × Int)}

/-- The frame of a called function stands at the bottom of the stack, and the frames of the
functions around it stand where they stood. -/
theorem Entered.stands (installed : Installed program layout rule executable link)
    (grounded : site.Grounded executable program layout link)
    (entered : Entered executable program layout rule link site home function outer base
      returnAddress memory origin) {own : FunDef × Int} (member : own ∈ (function, base) :: outer) :
    (layout.frameOf own.1.id).Stands
      (site.entered layout link function outer base returnAddress origin).kept
      (base - (layout.frameOf function.id).varsSize) executable.memory.size own.2 := by
  obtain ⟨parsSize, words, -, varsSize⟩ := entered.rooted.sizes installed.arranged
  have room := entered.room
  have data := entered.data
  have inside := grounded.inside
  have bounds := zero_le_bottom installed grounded
  rcases List.mem_cons.mp member with rfl | member
  · constructor
    case header => dsimp only [Frame.headerSize]; omega
    case link => dsimp only; omega
    case above => exact Int.le_refl _
    case inside => dsimp only; omega
    case keeps =>
      dsimp only [Site.entered, Frame.headerSize, Frame.Owns]
      intro address low high
      exact ⟨grounded.free address (by omega) (by omega), by omega⟩
    case owns => exact fun address owns keeps => keeps.2 owns
  · have stands := grounded.frames own (entered.outward own member)
    have above := stands.above
    have header := stands.header
    dsimp only [Frame.headerSize] at header
    constructor
    case header => exact stands.header
    case link => exact stands.link
    case above => omega
    case inside => exact stands.inside
    case keeps =>
      intro address low high
      refine ⟨stands.keeps address low high, ?_⟩
      dsimp only [Frame.headerSize, Frame.Owns] at low ⊢
      omega
    case owns => exact fun address owns keeps => stands.owns address owns keeps.1

/-- The access links still lead from the called function outwards once its frame has been set up:
each of them lies at or above the new frame pointer. -/
theorem Entered.linked (installed : Installed program layout rule executable link)
    (grounded : site.Grounded executable program layout link)
    (entered : Entered executable program layout rule link site home function outer base
      returnAddress memory origin) : origin.Chained (base :: outer.map Prod.snd) := by
  obtain ⟨parsSize, -, -, -⟩ := entered.rooted.sizes installed.arranged
  have room := entered.room
  intro index own next found there
  rw [← entered.chained index own next found there]
  refine entered.quiet.word fun address low high => .inr ?_
  rcases List.mem_cons.mp (List.mem_of_getElem? found) with rfl | member
  · exact low
  · obtain ⟨frame, framed, rfl⟩ := List.mem_map.mp member
    have stands := grounded.frames frame (entered.outward frame framed)
    have above := stands.above
    have header := stands.header
    dsimp only [Frame.headerSize] at header
    omega

/-- The frames of a called function and of the functions around it stand in memory. -/
theorem Entered.grounded (installed : Installed program layout rule executable link)
    (grounded : site.Grounded executable program layout link)
    (here : site.Here executable sp memory ambient)
    (entered : Entered executable program layout rule link site home function outer base
      returnAddress memory origin) :
    (site.entered layout link function outer base returnAddress origin).Grounded executable program
      layout link := by
  obtain ⟨parsSize, words, -, varsSize⟩ := entered.rooted.sizes installed.arranged
  have room := entered.room
  have data := entered.data
  have inside := grounded.inside
  have bounds := zero_le_bottom installed grounded
  obtain ⟨entry, stop⟩ := installed.arranged.code function
    (Program.mem_functions_of_nesting entered.rooted.nested) entered.hasBody
  constructor
  case size => exact entered.quiet.size.trans (here.size.trans grounded.size)
  case codeSize =>
    exact entered.quiet.codeSize.trans (here.stable.codeSize.trans grounded.codeSize)
  case inside => dsimp only [Site.entered]; omega
  case data => exact entered.data
  case pointer => dsimp only [Site.entered]; omega
  case code => dsimp only [Site.entered]; omega
  case frames => exact fun own member => entered.stands installed grounded member
  case innermost =>
    rintro own ⟨⟩
    rfl
  case chained => exact entered.linked installed grounded
  case free =>
    intro address low high
    dsimp only [Site.entered, Frame.Owns, Frame.headerSize] at high ⊢
    exact ⟨grounded.free address low (by omega), by omega⟩
  case words =>
    intro own member
    obtain ⟨held, keeps⟩ := grounded.words own member
    obtain ⟨-, stopWords, -⟩ := installed.arranged.words own member
    refine ⟨?_, fun address low high => ⟨keeps address low high, ?_⟩⟩
    · exact (held.intact here.stable fun address low high =>
        ⟨keeps address low high, .inr (by omega)⟩).intact entered.quiet
          fun address low high => .inl (by omega)
    · dsimp only [Frame.Owns, Frame.headerSize]
      omega
  case rooms =>
    intro declared member access found address low high keeps
    exact grounded.rooms declared member access found address low high keeps.1

/-- What a called function has left alone is intact for its caller. -/
theorem Entered.stable (installed : Installed program layout rule executable link)
    (entered : Entered executable program layout rule link site home function outer base
      returnAddress memory origin) {last : Memory}
    (stable : (site.entered layout link function outer base returnAddress origin).Stable executable
      (base - (layout.frameOf function.id).varsSize) origin last) :
    site.Stable executable (base + (layout.frameOf function.id).parsSize) memory last := by
  obtain ⟨parsSize, words, -, varsSize⟩ := entered.rooted.sizes installed.arranged
  have data := entered.data
  refine (Memory.Intact.mono entered.quiet fun address safe => ?_).trans
    (Memory.Intact.mono stable fun address safe => ?_)
  · have clear := safe.2
    omega
  · have clear := safe.2
    refine ⟨⟨safe.1, ?_⟩, by omega⟩
    dsimp only [Frame.Owns, Frame.headerSize]
    omega

/-- While the body of a called function runs, the header of its frame holds the return address
and the frame pointer of the caller. -/
theorem Entered.header {pc : Int} {last : Memory}
    (installed : Installed program layout rule executable link)
    (grounded : site.Grounded executable program layout link)
    (here : site.Here executable sp memory ambient) (within : site.start ≤ pc ∧ pc < site.stop)
    (entered : Entered executable program layout rule link site home function outer base (pc + 1)
      memory origin)
    (stable : (site.entered layout link function outer base (pc + 1) origin).Stable executable
      (base - (layout.frameOf function.id).varsSize) origin last) :
    (last.word (base - 8)).toInt = pc + 1 ∧ (last.word (base - 4)).toInt = site.fp := by
  have pointer := grounded.pointer
  have code := grounded.code
  have codeSize := installed.arranged.codeSize_le
  have dataEnd := installed.arranged.dataEnd_le
  have size := installed.arranged.size
  have stands := (entered.grounded installed grounded here).frames _ List.mem_cons_self
  have keeps := stands.keeps
  have above := stands.above
  have long := stands.header
  dsimp only [Frame.headerSize, Site.entered] at keeps above long
  have kept (address : Int) (low : base - 8 ≤ address) (high : address + 4 ≤ base + 4) :
      last.word address = origin.word address :=
    stable.word fun index least most => ⟨keeps index (by omega) (by omega), .inl (by omega)⟩
  constructor
  · rw [kept _ (by omega) (by omega), entered.returns]
    exact installed.arranged.toInt_ofInt (by omega) (by omega)
  · rw [kept _ (by omega) (by omega), entered.caller]
    exact installed.arranged.toInt_ofInt (by omega) (by omega)

end Entered

/-- The code of a point of the program runs at a site: the frames are those of the
functions around the point. -/
structure Active (executable : Executable) (program : Program) (layout : Layout) (rule : Rule)
    (link : Linkage) (watch : Watch executable) (site : Site) (scope : Scope) : Prop where
  sound : site.Sound executable program layout link watch
  staged : scope.Staged program layout rule link
  functions : site.chain.map Prod.fst = scope.enclosing
  inFunction : scope.enclosing ≠ []

/-- The innermost frame of a site belongs to the innermost function around. -/
theorem Active.innermost {program : Program} {layout : Layout} {rule : Rule}
    {executable : Executable} {link : Linkage} {watch : Watch executable} {site : Site}
    {scope : Scope} {owner : FunDef}
    (active : site.Active executable program layout rule link watch scope)
    (head : scope.enclosing.head? = some owner) : site.chain.head? = some (owner, site.fp) := by
  rw [← active.functions, List.head?_map] at head
  obtain ⟨own, isHead, rfl⟩ := Option.map_eq_some_iff.mp head
  rw [isHead, ← active.sound.innermost own isHead]

/-- The body of a called function runs at the site of the function. -/
theorem Entered.active {program : Program} {layout : Layout} {rule : Rule} {executable : Executable}
    {link : Linkage} {watch : Watch executable} {site : Site} {base returnAddress : Int}
    {memory origin : Memory} {home : Scope} {function : FunDef} {outer : List (FunDef × Int)}
    (entered : Entered executable program layout rule link site home function outer base
      returnAddress memory origin)
    (sound : (site.entered layout link function outer base returnAddress origin).Sound executable
      program layout link watch) :
    (site.entered layout link function outer base returnAddress origin).Active executable program
      layout rule link watch (.enter function home) where
  sound := sound
  staged := ⟨entered.rooted, entered.staged⟩
  functions := congrArg (function :: ·) entered.functions
  inFunction := List.cons_ne_nil _ _

/-- The access link of a callee leads to the innermost function around it, if there is
one. -/
theorem exists_frame_at_linkDistance {program : Program} {layout : Layout} {rule : Rule}
    {link : Linkage} {chain : List (FunDef × Int)} {scope home : Scope} {hops : Nat} {frame : Frame}
    (staged : scope.Staged program layout rule link) (inFunction : scope.enclosing ≠ [])
    (functions : chain.map Prod.fst = scope.enclosing) (around : scope.Around home hops)
    (deep : frame.depth = home.depth + 1) :
    ∃ reached, chain[(scope.context program layout).linkDistance frame]? = some reached ∧
      ∀ own ∈ (chain.drop hops).head?, own = reached := by
  have stagedHome := staged.around around
  have outward : (chain.drop hops).map Prod.fst = home.enclosing := by
    rw [List.map_drop, functions, around.enclosing]
  rw [Context.linkDistance, deep]
  by_cases top : home.depth + 1 ≤ 1
  · -- A function at the top level gets the frame of the caller, and does not use it.
    rw [if_pos top]
    have outermost : home.enclosing = [] := by
      cases home with
      | top defs => rfl
      | enter _ _ => exact absurd top (by simp [Scope.depth])
      | block _ _ => exact absurd top (by simp [Scope.depth])
    rw [outermost, List.map_eq_nil_iff] at outward
    have nonempty : chain ≠ [] := by
      rintro rfl
      exact inFunction functions.symm
    obtain ⟨own, rest, rfl⟩ := List.exists_cons_of_ne_nil nonempty
    rw [outward]
    exact ⟨own, rfl, fun _ head => by cases head⟩
  · have inside : home.enclosing ≠ [] := stagedHome.enclosing_ne_nil (by omega)
    rw [if_neg top, Nat.add_sub_cancel, staged.distance around inside]
    have nonempty : chain.drop hops ≠ [] := by
      intro empty
      rw [empty] at outward
      exact inside outward.symm
    obtain ⟨own, rest, split⟩ := List.exists_cons_of_ne_nil nonempty
    refine ⟨own, ?_, ?_⟩
    · rw [← List.head?_drop, split]
      rfl
    · rw [split]
      rintro _ ⟨⟩
      rfl

section Rules

variable {program : Program} {layout : Layout} {rule : Rule} {executable : Executable}
  {link : Linkage} {watch : Watch executable} {site : Site} {count : Nat} {pc sp base : Int}
  {memory : Memory} {ambient : Ambient} {home : Scope} {function : FunDef}
  {outer : List (FunDef × Int)}
  (installed : Installed program layout rule executable link)
  (sound : site.Sound executable program layout link watch)

include installed sound

/-- Pushing the access link and the address of a function whose arguments have been
pushed. -/
theorem at_callee {scope : Scope} {hops : Nat} {id : NodeId} {start stop : Int}
    (here : site.Here executable sp memory ambient)
    (covered : site.start ≤ start ∧ stop ≤ site.stop)
    (held : link.CalleeAt (scope.context program layout) id start stop)
    (linked : program.definition? id = some function.id)
    (staged : scope.Staged program layout rule link) (inFunction : scope.enclosing ≠ [])
    (functions : site.chain.map Prod.fst = scope.enclosing)
    (around : scope.Around home hops) (own : function ∈ home.ownFunctions)
    (room : sp + 4 * function.params.length ≤ site.bottom)
    (next : ∀ after, Quiet executable sp memory after →
      Ready program layout rule link site home function (site.chain.drop hops) (sp - 4) after →
      after.word (sp - 4 - 4) = Word.ofInt (link.entry function.id) →
      link.slots[stop - 1]? = some .call → site.start ≤ stop - 1 ∧ stop - 1 < site.stop →
      site.Here executable (sp - 4 - 4) after ambient →
      watch.At count site.live (stop - 1) site.fp (sp - 4 - 4) after ambient) :
    watch.At count site.live start site.fp sp memory ambient := by
  have stagedHome := staged.around around
  have rooted := stagedHome.rooted installed own
  obtain ⟨label, before, after, laid⟩ := rooted.laid
  obtain ⟨frame, framed, deep⟩ := laid.frame
  obtain ⟨parsSize, -⟩ := rooted.sizes installed.arranged
  rw [CalleeAt, show (scope.context program layout).program.definition? id = some function.id from
    linked] at held
  dsimp only at held
  rw [show (scope.context program layout).layout.frames[function.id]? = some frame from framed]
    at held
  obtain ⟨middle, first, fetchEntry, fetchCall, rfl⟩ := holds_append.mp held
  have outward : (site.chain.drop hops).map Prod.fst = home.enclosing := by
    rw [List.map_drop, functions, around.enclosing]
  simp only [Opcode.size] at covered fetchCall next
  have below := here.below
  have lies := first.le
  obtain ⟨reached, found, leads⟩ :=
    exists_frame_at_linkDistance staged inFunction functions around deep
  refine at_frameOps installed sound here ⟨covered.1, by omega⟩ first found
    fun linkPushed quiet base moved => ?_
  refine at_push installed.slots sound moved ⟨by omega, by omega⟩ fetchEntry
    fun entryPushed again entry stays => ?_
  rw [show middle + 5 + 1 - 1 = middle + 5 by omega] at next
  refine next entryPushed (quiet.trans (again.mono (by omega))) ?_ entry fetchCall
    ⟨by omega, by omega⟩ stays
  refine ⟨rooted, stagedHome, outward, fun own member => List.mem_of_mem_drop member, ?_,
    by omega⟩
  intro index own outerBase foundOwn foundOuter
  cases index with
  | zero =>
    cases foundOwn
    rw [List.getElem?_cons_succ, ← List.head?_eq_getElem?, List.head?_map] at foundOuter
    obtain ⟨frame, isHead, rfl⟩ := Option.map_eq_some_iff.mp foundOuter
    rw [leads frame isHead, ← base]
    exact again.word fun index low high => .inr low
  | succ index =>
    rw [List.getElem?_cons_succ, List.getElem?_map, List.getElem?_drop] at foundOwn foundOuter
    obtain ⟨inner, isInner, rfl⟩ := Option.map_eq_some_iff.mp foundOwn
    obtain ⟨farther, isFarther, rfl⟩ := Option.map_eq_some_iff.mp foundOuter
    exact word_base sound.toGrounded stays.stable isInner isFarther

/-- Calling a function with a body sets up its frame. -/
theorem at_enter (here : site.Here executable (base - 4) memory ambient)
    (ready : Ready program layout rule link site home function outer base memory)
    (hasBody : function.isExternal = false) (within : site.start ≤ pc ∧ pc < site.stop)
    (fetch : link.slots[pc]? = some .call)
    (top : memory.word (base - 4) = Word.ofInt (link.entry function.id))
    (starting : ∀ place after, link.entry function.id ≤ place → place < link.entry function.id + 6 →
      watch.good place base after (⟨link.entry function.id, base, pc + 1, site.fp⟩ :: site.live))
    (next : ∀ origin, Entered executable program layout rule link site home function outer base
        (pc + 1) memory origin →
      (site.entered layout link function outer base (pc + 1) origin).Here executable
        (base - (layout.frameOf function.id).varsSize) origin ambient →
      watch.At (count - 1) (⟨link.entry function.id, base, pc + 1, site.fp⟩ :: site.live)
        (link.entry function.id + 6) base (base - (layout.frameOf function.id).varsSize) origin
        ambient) :
    watch.At count site.live pc site.fp (base - 4) memory ambient := by
  obtain ⟨parsSize, words, localsSize, varsSize⟩ := ready.rooted.sizes installed.arranged
  have member := Program.mem_functions_of_nesting ready.rooted.nested
  have fits := installed.fits function member
  obtain ⟨entry, stop⟩ := installed.arranged.code function member hasBody
  obtain ⟨bodyStop, finish, fetchSize, fetchReserve, held, value, returns⟩ :=
    ready.rooted.parts hasBody
  have first := StmtsAt.le _ held
  have second := value.le
  have third := returns.le
  have codeSize := installed.arranged.codeSize_le
  have dataEnd := installed.arranged.dataEnd_le
  have size := installed.arranged.size
  have room := ready.room
  have inside := bottom_le_size sound here
  have data := here.data
  have target : (memory.word (base - 4)).toInt = link.entry function.id := by
    rw [top]
    exact installed.arranged.toInt_ofInt entry (by omega)
  rw [installed.slots] at fetch fetchSize fetchReserve
  have back : base - 4 + 4 = base := by omega
  refine Watch.at_enter here.stacked (good_here sound here within) fetch (by omega) target entry
    fun middle header putCaller putReturn stacked => ?_
  rw [back]
  rw [show base - 4 - 4 = base - 8 by omega] at putReturn stacked ⊢
  refine Watch.at_push stacked (starting _ _ (Int.le_refl _) (by omega)) fetchSize
    fun sized putSize lower => ?_
  have same : sized.size = memory.size := by
    rw [putSize.outside.size, putReturn.outside.size, putCaller.outside.size]
  refine @Watch.at_reserve _ _ _ _ _ _ _ _ _ lower (starting _ _ (by omega) (by omega)) words
    fetchReserve (by omega) ?_ ?_ fun origin reserved reservedStack => ?_
  · simp only [Word.Fits] at fits ⊢
    omega
  · rw [putSize.word, localsSize]
  have lowest : base - 8 - 4 + 4 - 4 * (words : Int) =
      base - (layout.frameOf function.id).varsSize := by omega
  rw [lowest, show base - 8 - 4 + 4 = base - 8 by omega] at reserved
  rw [lowest] at reservedStack ⊢
  have heap := reservedStack.heap
  have sizedHeap := lower.heap
  rw [show link.entry function.id + 5 + 1 = link.entry function.id + 6 by omega]
  have quiet : Quiet executable base memory origin := by
    refine (putCaller.intact fun index outside => by omega).trans
      ((putReturn.intact fun index outside => by omega).trans
        ((putSize.intact fun index outside => by omega).trans
          (reserved.mono fun index outside => by omega)))
  have entered : Entered executable program layout rule link site home function outer base (pc + 1)
      memory origin := by
    refine ⟨ready, hasBody, quiet, ?_, ?_, by omega⟩
    · rw [← putCaller.word, ← putReturn.other (by omega), ← putSize.other (by omega)]
      exact reserved.word fun index low high => .inr (by omega)
    · rw [← putReturn.word, ← putSize.other (by omega)]
      exact reserved.word fun index low high => .inr (by omega)
  exact (next origin entered ⟨.refl _ _, reservedStack, Int.le_refl _, data⟩).mono (by omega)

/-- Returning to the caller, with the value of the function on top of the stack. -/
theorem at_return {start : Int} {origin last : Memory} {later : Ambient}
    (here : site.Here executable sp memory ambient)
    (entered : Entered executable program layout rule link site home function outer base (pc + 1)
      memory origin)
    (inner : (site.entered layout link function outer base (pc + 1) origin).Sound executable program
      layout link watch)
    (there : (site.entered layout link function outer base (pc + 1) origin).Here executable
      (base - (layout.frameOf function.id).varsSize - 4) last later)
    (within : site.start ≤ pc ∧ pc < site.stop) (covered : link.entry function.id + 6 ≤ start)
    (held : link.Holds start
      [.push (Word.ofInt ((layout.frameOf function.id).parsSize - 4)), .retn]
      (link.stop function.id))
    (next : ∀ middle after,
      Quiet executable (base - (layout.frameOf function.id).varsSize - 4) last middle →
      Memory.Put middle (base + (layout.frameOf function.id).parsSize - 4)
        (last.word (base - (layout.frameOf function.id).varsSize - 4)) after →
      site.Stable executable (base + (layout.frameOf function.id).parsSize) memory after →
      site.Here executable (base + (layout.frameOf function.id).parsSize - 4) after later →
      watch.At count site.live (pc + 1) site.fp (base + (layout.frameOf function.id).parsSize - 4)
        after later) :
    watch.At count (⟨link.entry function.id, base, pc + 1, site.fp⟩ :: site.live) start base
      (base - (layout.frameOf function.id).varsSize - 4) last later := by
  obtain ⟨parsSize, words, localsSize, varsSize⟩ := entered.rooted.sizes installed.arranged
  obtain ⟨fetchSize, fetchReturn, stops⟩ := held
  have stop : link.stop function.id = start + 5 + 1 := stops
  have room := entered.room
  have inside := sound.inside
  have code := sound.code
  have codeSize := installed.arranged.codeSize_le
  have dataEnd := installed.arranged.dataEnd_le
  have size := installed.arranged.size
  have data := entered.data
  refine at_push installed.slots inner there ⟨covered, ?_⟩ fetchSize fun sized quiet top moved => ?_
  · dsimp only [Site.entered]
    omega
  obtain ⟨returns, caller⟩ := entered.header installed sound.toGrounded here within moved.stable
  have given : (sized.word (base - (layout.frameOf function.id).varsSize - 4 - 4)).toInt =
      (layout.frameOf function.id).parsSize - 4 := by
    rw [top]
    exact installed.arranged.toInt_ofInt (by omega) (by omega)
  have value : sized.word (base - (layout.frameOf function.id).varsSize - 4 - 4 + 4) =
      last.word (base - (layout.frameOf function.id).varsSize - 4) := by
    rw [show base - (layout.frameOf function.id).varsSize - 4 - 4 + 4 =
      base - (layout.frameOf function.id).varsSize - 4 by omega]
    exact quiet.word fun index low high => .inr low
  have sameSize : (sized.size : Int) = executable.memory.size := by
    rw [moved.size, inner.size]
  rw [installed.slots] at fetchReturn
  refine Watch.at_leave moved.stacked (good_here inner moved ⟨?_, ?_⟩) fetchReturn ?_ ?_ (by omega)
    given returns caller fun after put stacked => ?_
  · dsimp only [Site.entered, Opcode.size]
    omega
  · dsimp only [Site.entered, Opcode.size]
    omega
  · dsimp only [Site.entered]
    omega
  · dsimp only [Site.entered]
    omega
  dsimp only [Site.entered] at put stacked ⊢
  rw [value] at put
  rw [show base + ((layout.frameOf function.id).parsSize - 4) =
    base + (layout.frameOf function.id).parsSize - 4 by omega] at put stacked ⊢
  have stable : site.Stable executable (base + (layout.frameOf function.id).parsSize) memory after :=
    (entered.stable installed moved.stable).trans (put.intact fun index safe => by
      have clear := safe.2
      omega)
  exact (next sized after quiet put stable
    (here.moved (stable.mono room) stacked (by omega) there.data)).mono (Nat.sub_le _ _)

end Rules

section Services

variable {program : Program} {layout : Layout} {rule : Rule} {executable : Executable}
  {link : Linkage} {watch : Watch executable} {site : Site} {count : Nat} {pc base : Int}
  {memory : Memory} {ambient : Ambient}
  (installed : Installed program layout rule executable link)
  (sound : site.Sound executable program layout link watch)
  (here : site.Here executable (base - 4) memory ambient)
  (within : site.start ≤ pc ∧ pc < site.stop) (fetch : link.slots[pc]? = some .call)

include here in
/-- A service puts its result in the place of its last argument, or of the access
link. -/
theorem Here.served {result : Word} {place : Int} {after : Memory} {later : Ambient}
    (low : base ≤ place) (room : place + 4 ≤ site.bottom)
    (put : Memory.Put memory place result after) (stacked : Stacked place after later)
    (data : executable.dataEnd ≤ later.hp) :
    site.Here executable place after later ∧ Quiet executable (place + 4) memory after := by
  have heap := here.stacked.heap
  have above := here.data
  have quiet : Quiet executable (place + 4) memory after := put.intact fun index outside => by omega
  exact ⟨here.moved (stable_of_quiet (quiet.mono room)) stacked (by omega) data, quiet⟩

include installed sound here within fetch

/-- Calling the service that stops the machine. -/
theorem at_exit (top : memory.word (base - 4) = Word.ofInt Service.exit.address)
    (room : base + 8 ≤ site.bottom)
    (ends : ∀ state : State, state.input = ambient.input → state.output = ambient.output →
      watch.ends (.exited (memory.word (base + 4)).toInt) state) :
    watch.At count site.live pc site.fp (base - 4) memory ambient := by
  have inside := bottom_le_size sound here
  rw [installed.slots] at fetch
  refine Watch.at_exit here.stacked (good_here sound here within) fetch (by omega)
    (by rw [top]; rfl) ?_
  rw [show base - 4 + 8 = base + 4 by omega]
  exact ends

/-- Calling the service that reads a number. -/
theorem at_getint (top : memory.word (base - 4) = Word.ofInt Service.getint.address)
    (room : base + 4 ≤ site.bottom)
    (next : ∀ value rest, Input.readInt ambient.input = (.ok value, rest) → ∀ after,
      Quiet executable (base + 4) memory after → after.word base = Word.ofInt value →
      site.Here executable base after { ambient with input := rest } →
      watch.At count site.live (pc + 1) site.fp base after { ambient with input := rest })
    (failing : ∀ fault rest, Input.readInt ambient.input = (.error fault, rest) →
      ∀ state : State, state.input = rest → state.output = ambient.output →
      watch.ends (.faulted fault) state) :
    watch.At count site.live pc site.fp (base - 4) memory ambient := by
  have inside := bottom_le_size sound here
  rw [installed.slots] at fetch
  refine Watch.at_getint here.stacked (good_here sound here within) fetch (by omega)
    (by rw [top]; rfl) (fun value rest found after put stacked => ?_) failing
  rw [show base - 4 + 4 = base by omega] at put stacked ⊢
  obtain ⟨moved, quiet⟩ := here.served (Int.le_refl _) room put stacked here.data
  exact (next value rest found after quiet put.word moved).mono (Nat.sub_le _ _)

/-- Calling the service that shows a number. -/
theorem at_putint (top : memory.word (base - 4) = Word.ofInt Service.putint.address)
    (room : base + 8 ≤ site.bottom) {bytes : List UInt8}
    (shown : Utf8.encode (Decimal.render (memory.word (base + 4)).toInt) = bytes)
    (next : ambient.output.fits bytes = true → ∀ after, Quiet executable (base + 8) memory after →
      after.word (base + 4) = 1 →
      site.Here executable (base + 4) after
        { ambient with output := ambient.output.write bytes } →
      watch.At count site.live (pc + 1) site.fp (base + 4) after
        { ambient with output := ambient.output.write bytes })
    (full : ambient.output.fits bytes = false → ∀ state : State, state.input = ambient.input →
      state.output = ambient.output.write bytes → watch.ends (.faulted .outputFull) state) :
    watch.At count site.live pc site.fp (base - 4) memory ambient := by
  have inside := bottom_le_size sound here
  rw [installed.slots] at fetch
  have place : base - 4 + 8 = base + 4 := by omega
  refine Watch.at_putint here.stacked (good_here sound here within) fetch (by omega)
    (by rw [top]; rfl) (by rw [place]; exact shown) (fun fits after put stacked => ?_) full
  rw [place] at put stacked ⊢
  obtain ⟨moved, quiet⟩ := here.served (by omega) (by omega) put stacked here.data
  rw [show base + 4 + 4 = base + 8 by omega] at quiet
  exact (next fits after quiet put.word moved).mono (Nat.sub_le _ _)

/-- Any service but `getstr` puts its result in the place of its last argument, or it
fails in a regular way. -/
theorem at_service {service : Service} {place : Int} (other : service ≠ .getstr)
    (top : memory.word (base - 4) = Word.ofInt service.address)
    (last : place = base + 4 * service.arity) (room : place + 4 ≤ site.bottom)
    (next : ∀ after later, Quiet executable (place + 4) memory after →
      site.Here executable place after later →
      watch.At count site.live (pc + 1) site.fp place after later)
    (exiting : ∀ code state, watch.ends (.exited code) state)
    (failing : ∀ fault : Fault, fault.Regular → ∀ state, watch.ends (.faulted fault) state) :
    watch.At count site.live pc site.fp (base - 4) memory ambient := by
  have inside := bottom_le_size sound here
  have result : base - 4 + 8 = base + 4 := by omega
  have target : (memory.word (base - 4)).toInt = service.address := by
    rw [top]
    cases service <;> rfl
  have good := good_here sound here within
  have slot := fetch
  rw [installed.slots] at slot
  cases service with
  | getstr => exact absurd rfl other
  | getint =>
    obtain rfl : place = base := by simpa [Service.arity] using last
    exact at_getint installed sound here within fetch top room
      (fun _ _ _ after quiet _ moved => next after _ quiet moved)
      fun fault rest found state _ _ =>
        failing fault (Input.ofAccess_of_readInt (congrArg Prod.fst found)).regular state
  | exit =>
    obtain rfl : place = base + 4 := by simpa [Service.arity] using last
    exact at_exit installed sound here within fetch top (by omega) fun state _ _ => exiting _ state
  | putint =>
    obtain rfl : place = base + 4 := by simpa [Service.arity] using last
    rw [show base + 4 + 4 = base + 8 by omega] at room next
    exact at_putint installed sound here within fetch top room rfl
      (fun _ after quiet _ moved => next after _ quiet moved)
      fun _ state _ _ => failing .outputFull trivial state
  | putstr =>
    obtain rfl : place = base + 4 := by simpa [Service.arity] using last
    refine Watch.at_putstr here.stacked good slot (by omega) target
      (fun output after put stacked => ?_) failing
    rw [result] at put stacked ⊢
    obtain ⟨moved, quiet⟩ := here.served (by omega) room put stacked here.data
    exact (next after _ quiet moved).mono (Nat.sub_le _ _)
  | new =>
    obtain rfl : place = base + 4 := by simpa [Service.arity] using last
    have data := here.data
    refine Watch.at_new here.stacked good slot (by omega) target
      (fun hp after more outside stacked => ?_)
      fun size state => failing (.heapExhausted size) trivial state
    rw [result] at stacked ⊢
    have quiet : Quiet executable (base + 4 + 4) memory after :=
      outside.mono fun index apart => by omega
    exact (next after _ quiet (here.moved (stable_of_quiet (quiet.mono room)) stacked (by omega)
      (Int.le_trans data more))).mono (Nat.sub_le _ _)
  | del =>
    obtain rfl : place = base + 4 := by simpa [Service.arity] using last
    refine Watch.at_del here.stacked good slot (by omega) target fun after put stacked => ?_
    rw [result] at put stacked ⊢
    obtain ⟨moved, quiet⟩ := here.served (by omega) room put stacked here.data
    exact (next after _ quiet moved).mono (Nat.sub_le _ _)

end Services

end Site

end ScopeStack
