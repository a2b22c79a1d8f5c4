import ScopeStack.Proofs.Execution.Sites

/-!
# The code at address zero

It runs at a site without frames, `Site.initial`. It expands the initializer of every global
variable into its room, pushes an access link and the address of the entry point and calls it.
This needs no assumption on the program: every room and every block of words is a stretch of
memory of its own, and what is pushed in between lies above all of them.

`Site.at_bootstrap` follows the machine to the call, whatever is watched on the way. There
every global variable holds the contents of its initializer.
-/

namespace ScopeStack

open Emission Linkage

/-- The code that initializes global variables ends where it starts or later. -/
theorem Linkage.GlobalsAt.le {link : Linkage} {globals : List VarDef} {start stop : Int}
    (held : link.GlobalsAt globals start stop) : start ≤ stop := by
  induction globals generalizing start with
  | nil => exact Int.le_of_eq (Eq.symm held)
  | cons declared rest hypothesis =>
    obtain ⟨middle, own, later⟩ := held
    exact Int.le_trans own.le (hypothesis later)

/-- The global variables of a program have different numbers. -/
theorem Program.Distinct.nodup_globals {program : Program} (distinct : program.Distinct) :
    ((variablesIn program.defs).map VarDef.id).Nodup :=
  nodup_of_count_le distinct fun id => by
    rw [count_idsOfDefs]
    exact Nat.le_add_right _ _

/-- Some global variables hold the contents of their initializers. -/
def Linkage.Initialized (link : Linkage) (program : Program) (done : List VarDef)
    (memory : Memory) : Prop :=
  ∀ declared ∈ done, declared ∈ variablesIn program.defs ∧
    ∃ words, Initializer.contents? declared.items = some words ∧
      memory.WordsAt (link.room declared.id) words

namespace Site

/-- The place where the code at address zero runs. It writes to the rooms of global
variables alone. -/
def initial (executable : Executable) (program : Program) (layout : Layout) (link : Linkage)
    (stop : Int) : Site where
  chain := []
  fp := executable.config.stackTop
  bottom := executable.config.stackTop
  start := 0
  stop := stop
  live := []
  kept address := ∀ declared ∈ variablesIn program.defs, ∀ access : AbsAccess,
    layout.accesses[declared.id]? = some (.abs access) →
      ¬(link.room declared.id ≤ address ∧ address < link.room declared.id + access.size)
  origin := executable.memory

variable {program : Program} {layout : Layout} {executable : Executable} {link : Linkage}
  (arranged : Arranged program layout executable link)

include arranged

/-- There are no frames yet, and the data are as they were loaded. -/
theorem grounded_initial {stop : Int} (inside : stop ≤ executable.memory.codeSize) :
    (initial executable program layout link stop).Grounded executable program layout link := by
  have size := arranged.size
  have codeSize := arranged.codeSize_nonneg
  have data := arranged.codeSize_le
  have dataEnd := arranged.dataEnd_le
  constructor
  case size => rfl
  case codeSize => rfl
  case inside => exact Int.le_of_eq size.symm
  case data => exact dataEnd
  case pointer => exact ⟨by dsimp only [initial]; omega, Int.le_of_eq size.symm⟩
  case code => exact ⟨Int.le_refl 0, inside⟩
  case frames => exact fun own member => nomatch member
  case innermost => exact fun own head => nomatch head
  case chained => exact fun index base outer found => nomatch found
  case free =>
    intro address low high declared member access found room
    have ends := (arranged.room declared member access found).2.1
    omega
  case words =>
    intro own member
    refine ⟨(arranged.words own member).2.2, ?_⟩
    intro address low high declared inside access found room
    have apart := (arranged.room declared inside access found).2.2 own member
    simp only [Memory.Apart] at apart
    omega
  case rooms =>
    intro declared member access found address low high kept
    exact kept declared member access found ⟨low, high⟩

variable {globals : Table String} {before after : LabelSet}
  (laid : layout.TopLaid globals program.defs before after)

include laid

section Kept

variable {done : List VarDef} {memory last : Memory}
  (initialized : link.Initialized program done memory)

include initialized

/-- Variables keep their contents when their rooms are not written to. -/
theorem initialized_intact {fixed : Int → Prop} (intact : Memory.Intact fixed memory last)
    (rooms : ∀ declared ∈ done, ∀ access : AbsAccess,
      layout.accesses[declared.id]? = some (.abs access) → ∀ address,
        link.room declared.id ≤ address → address < link.room declared.id + access.size →
          fixed address) : link.Initialized program done last := by
  intro declared inside
  obtain ⟨member, words, contents, held⟩ := initialized declared inside
  obtain ⟨runs, label, -, same, found⟩ := arranged.exists_contents laid member
  cases contents.symm.trans same
  exact ⟨member, _, contents, held.intact intact (rooms declared inside _ found)⟩

/-- What is pushed lies above the rooms. -/
theorem initialized_quiet {sp : Int} (quiet : Quiet executable sp memory last) :
    link.Initialized program done last := by
  refine initialized_intact arranged laid initialized quiet
    fun declared inside access found address low high => .inl ?_
  have stop := (arranged.room declared (initialized declared inside).1 access found).2.1
  omega

end Kept

section Code

variable {watch : Watch executable} {limit : Int} {count : Nat} {sp start stop : Int}
  {memory : Memory} {ambient : Ambient} {done : List VarDef}
  (slots : link.slots = executable.slots)
  (sound : (initial executable program layout link limit).Sound executable program layout link
    watch)

include slots sound

/-- The code for one global variable fills its room. -/
theorem at_global {declared : VarDef} (member : declared ∈ variablesIn program.defs)
    (fresh : ∀ other ∈ done, other.id ≠ declared.id) (covered : 0 ≤ start ∧ stop ≤ limit)
    (held : link.Holds start
      [.push (Word.ofInt (link.room declared.id)), .push (Word.ofInt (link.words declared.id)), .init]
      stop)
    (here : (initial executable program layout link limit).Here executable sp memory ambient)
    (initialized : link.Initialized program done memory)
    (next : ∀ last, (initial executable program layout link limit).Here executable sp last ambient →
      link.Initialized program (declared :: done) last →
      watch.At count [] stop executable.config.stackTop sp last ambient) :
    watch.At count [] start executable.config.stackTop sp memory ambient := by
  obtain ⟨runs, label, read, contents, found⟩ := arranged.exists_contents laid member
  obtain ⟨low, high, apart⟩ := arranged.room declared member _ found
  have isBlock := @globalData_mem_topData layout _ _ member
  rw [globalData, found] at isBlock
  obtain ⟨fetchRoom, fetchWords, fetchInit, rfl⟩ := held
  simp only [Opcode.size] at covered fetchWords fetchInit next
  dsimp only at high
  have dataEnd := arranged.dataEnd_le
  have size := arranged.size
  have below := here.below
  dsimp only [initial] at below
  refine at_push slots sound here ⟨covered.1, by dsimp only [initial]; omega⟩ fetchRoom
    fun first quiet room moved => ?_
  refine at_push slots sound moved
    ⟨by dsimp only [initial]; omega, by dsimp only [initial]; omega⟩ fetchWords
    fun second again source stays => ?_
  have place : second.word (sp - 4 - 4 + 4) = Word.ofInt (link.room declared.id) := by
    rw [show sp - 4 - 4 + 4 = sp - 4 by omega, ← room]
    exact again.word fun index above short => .inr above
  refine at_initialize arranged slots sound stays
    ⟨by dsimp only [initial]; omega, by dsimp only [initial]; omega⟩ fetchInit
    (by dsimp only [initial]; omega) read isBlock rfl source place low (by omega)
    (apart _ isBlock).symm (sound.rooms declared member _ found)
    fun last outside written popped => ?_
  rw [show sp - 4 - 4 + 8 = sp by omega] at popped ⊢
  refine next last popped fun other inside => ?_
  rcases List.mem_cons.mp inside with rfl | earlier
  · exact ⟨member, _, contents, written⟩
  · refine initialized_intact arranged laid
      (initialized_quiet arranged laid initialized (quiet.trans (again.mono (by omega)))) outside
      (fun other inside access otherFound address above short => ?_) other earlier
    have between := arranged.roomApart other (initialized other inside).1 declared member
      (fresh other inside) _ _ otherFound found
    simp only [Memory.Apart] at between
    omega

/-- The code for global variables fills their rooms, one after another. -/
theorem at_globals {rest : List VarDef}
    (members : ∀ declared ∈ rest, declared ∈ variablesIn program.defs)
    (nodup : (rest.map VarDef.id).Nodup)
    (fresh : ∀ declared ∈ rest, ∀ other ∈ done, other.id ≠ declared.id)
    (covered : 0 ≤ start ∧ stop ≤ limit) (held : link.GlobalsAt rest start stop)
    (here : (initial executable program layout link limit).Here executable sp memory ambient)
    (initialized : link.Initialized program done memory)
    (next : ∀ last, (initial executable program layout link limit).Here executable sp last ambient →
      link.Initialized program (rest.reverse ++ done) last →
      watch.At count [] stop executable.config.stackTop sp last ambient) :
    watch.At count [] start executable.config.stackTop sp memory ambient := by
  induction rest generalizing start memory done with
  | nil =>
    obtain rfl : stop = start := held
    exact next memory here initialized
  | cons declared rest hypothesis =>
    obtain ⟨middle, own, later⟩ := held
    rw [List.forall_mem_cons] at members fresh
    rw [List.map_cons, List.nodup_cons] at nodup
    have first := own.le
    have second := later.le
    refine at_global arranged laid slots sound members.1 fresh.1 ⟨covered.1, by omega⟩ own here
      initialized fun last stays more => ?_
    refine hypothesis members.2 nodup.2 (fun other isRest earlier isDone => ?_)
      ⟨by omega, covered.2⟩ later stays more fun final remains all => ?_
    · rcases List.mem_cons.mp isDone with rfl | isEarlier
      · exact fun same => nodup.1 (same ▸ List.mem_map_of_mem isRest)
      · exact fresh.2 other isRest earlier isEarlier
    · refine next final remains ?_
      rw [List.reverse_cons, List.append_assoc, List.singleton_append]
      exact all

/-- The code at address zero fills the rooms of all global variables and gets ready to call
the entry point. -/
theorem at_bootstrap {main : FunDef} (distinct : program.Distinct)
    (held : link.StartAt (variablesIn program.defs) main limit)
    (heap : ambient.hp = executable.dataEnd)
    (next : ∀ pc last, 0 ≤ pc → link.slots[pc]? = some .call →
      link.Holds (pc + 1)
        [.push 0, .push 0, .push (Word.ofInt Service.exit.address), .call] limit →
      (initial executable program layout link limit).Here executable
        (executable.config.stackTop - 4 - 4) last ambient →
      link.Initialized program (variablesIn program.defs) last →
      last.word (executable.config.stackTop - 4 - 4) = Word.ofInt (link.entry main.id) →
      watch.At count [] pc executable.config.stackTop (executable.config.stackTop - 4 - 4) last
        ambient) :
    watch.At count [] 0 executable.config.stackTop executable.config.stackTop executable.memory
      ambient := by
  have size := arranged.size
  have codeSize := arranged.codeSize_le
  have dataEnd := arranged.dataEnd_le
  obtain ⟨middle, initializes, fetchLink, fetchEntry, fetchCall, ending⟩ := held
  have first := initializes.le
  have rest := Holds.le ending
  simp only [Opcode.size] at fetchEntry fetchCall ending rest
  have here : (initial executable program layout link limit).Here executable
      executable.config.stackTop executable.memory ambient :=
    ⟨.refl _ _, ⟨by omega, by omega, by omega⟩, Int.le_refl _, Int.le_of_eq heap.symm⟩
  refine at_globals arranged laid slots sound (fun _ member => member) distinct.nodup_globals
    (fun _ _ _ inside => absurd inside List.not_mem_nil) ⟨Int.le_refl 0, by omega⟩ initializes here
    (fun _ inside => absurd inside List.not_mem_nil) fun ready moved initialized => ?_
  refine at_push slots sound moved
    ⟨by dsimp only [initial]; omega, by dsimp only [initial]; omega⟩ fetchLink
    fun second quiet _ stays => ?_
  refine at_push slots sound stays
    ⟨by dsimp only [initial]; omega, by dsimp only [initial]; omega⟩ fetchEntry
    fun third again top remains => ?_
  have all := initialized_quiet arranged laid initialized (quiet.trans (again.mono (by omega)))
  refine next _ third (by omega) fetchCall ending remains
    (fun declared inside => all declared ?_) top
  rw [List.append_nil, List.mem_reverse]
  exact inside

end Code

end Site

end ScopeStack
