import ScopeStack.Proofs.Execution.Startup
import ScopeStack.Proofs.Progress

/-!
# Where the store lies in memory

The locations of the reference semantics are never used again, while memory is. A
`Place` says at which addresses the locations lie that are still in use: those of the
variables around the point where the machine is, and of all points to which it will
return. `Place.Agrees` says that memory holds there what the store holds.

When variables get fresh locations, their words in memory have already been written.
They become part of the place for as long as the block or the function is active.
-/

namespace ScopeStack

open Emission Linkage

/-- Locations of the store and the addresses at which they lie. -/
abbrev Place := List (Nat × Int)

namespace Place

/-- The words at different locations do not overlap. -/
def Separate (place : Place) : Prop :=
  ∀ first ∈ place, ∀ second ∈ place,
    first = second ∨ first.1 ≠ second.1 ∧ Memory.Apart first.2 4 second.2 4

/-- Memory and the streams of the machine are what the world says. -/
structure Agrees (place : Place) (world : World) (memory : Memory) (ambient : Ambient) : Prop where
  separate : place.Separate
  words : ∀ entry ∈ place, world.store[entry.1]? = some (memory.word entry.2)
  input : ambient.input = world.input
  output : ambient.output = world.output

/-- All words lie above an address or in the data of the program. -/
def Clear (executable : Executable) (limit : Int) (place : Place) : Prop :=
  ∀ entry ∈ place, limit ≤ entry.2 ∨ entry.2 + 4 ≤ executable.dataEnd

variable {executable : Executable} {place more : Place} {world : World} {memory after : Memory}
  {ambient : Ambient}

/-- What is clear of a limit is clear of a lower one. -/
theorem Clear.mono {limit lower : Int} (clear : place.Clear executable limit) (le : lower ≤ limit) :
    place.Clear executable lower :=
  fun entry inside => (clear entry inside).imp_left (Int.le_trans le)

namespace Agrees

/-- A relation that holds of more locations holds of fewer. -/
theorem mono (agrees : more.Agrees world memory ambient) (less : place ⊆ more) :
    place.Agrees world memory ambient where
  separate first isFirst second isSecond :=
    agrees.separate first (less isFirst) second (less isSecond)
  words entry inside := agrees.words entry (less inside)
  input := agrees.input
  output := agrees.output

/-- A change of memory elsewhere. -/
theorem intact {fixed : Int → Prop} (agrees : place.Agrees world memory ambient)
    (unchanged : Memory.Intact fixed memory after)
    (inside : ∀ entry ∈ place, ∀ index, entry.2 ≤ index → index < entry.2 + 4 → fixed index) :
    place.Agrees world after ambient where
  separate := agrees.separate
  words entry member := by
    rw [agrees.words entry member, unchanged.word (inside entry member)]
  input := agrees.input
  output := agrees.output

/-- A change in the free part of the stack. -/
theorem quiet {sp limit : Int} (agrees : place.Agrees world memory ambient)
    (clear : place.Clear executable limit) (below : sp ≤ limit)
    (unchanged : Site.Quiet executable sp memory after) : place.Agrees world after ambient :=
  agrees.intact unchanged fun entry inside index low high => by
    have apart := clear entry inside
    omega

/-- Reading from the input. -/
theorem read (agrees : place.Agrees world memory ambient) (rest : List UInt8) :
    place.Agrees { world with input := rest } memory { ambient with input := rest } :=
  ⟨agrees.separate, agrees.words, rfl, agrees.output⟩

/-- Writing to the output. -/
theorem write (agrees : place.Agrees world memory ambient) (bytes : List UInt8) :
    place.Agrees { world with output := world.output.write bytes } memory
      { ambient with output := ambient.output.write bytes } :=
  ⟨agrees.separate, agrees.words, agrees.input, by rw [agrees.output]⟩

/-- Changing the word at a location. -/
theorem assign {location : Nat} {address : Int} {value : Word}
    (agrees : place.Agrees world memory ambient) (inside : (location, address) ∈ place)
    (put : Memory.Put memory address value after) :
    place.Agrees { world with store := world.store.set location value } after ambient where
  separate := agrees.separate
  words entry member := by
    rcases agrees.separate _ inside entry member with same | ⟨different, apart⟩
    · have low := (List.getElem?_eq_some_iff.mp (agrees.words _ inside)).1
      rw [← same, put.word]
      exact List.getElem?_set_self low
    · have kept : after.word entry.2 = memory.word entry.2 := put.other apart.symm
      rw [kept, ← agrees.words entry member]
      exact List.getElem?_set_ne different
  input := agrees.input
  output := agrees.output

/-- Taking a fresh location for a word that does not overlap with the others. -/
theorem allocate {address : Int} (agrees : place.Agrees world memory ambient)
    (apart : ∀ entry ∈ place, Memory.Apart address 4 entry.2 4) :
    Agrees ((world.store.length, address) :: place)
      { world with store := world.store ++ [memory.word address] } memory ambient where
  separate := by
    have fresh : ∀ entry ∈ place, entry.1 ≠ world.store.length := fun entry inside =>
      Nat.ne_of_lt (List.getElem?_eq_some_iff.mp (agrees.words entry inside)).1
    intro first isFirst second isSecond
    rcases List.mem_cons.mp isFirst with rfl | isFirst
    · rcases List.mem_cons.mp isSecond with rfl | isSecond
      · exact .inl rfl
      · exact .inr ⟨(fresh second isSecond).symm, apart second isSecond⟩
    · rcases List.mem_cons.mp isSecond with rfl | isSecond
      · exact .inr ⟨fresh first isFirst, (apart first isFirst).symm⟩
      · exact agrees.separate first isFirst second isSecond
  words entry inside := by
    rcases List.mem_cons.mp inside with rfl | inside
    · exact List.getElem?_concat_length
    · have low := (List.getElem?_eq_some_iff.mp (agrees.words entry inside)).1
      rw [← agrees.words entry inside]
      exact List.getElem?_append_left low
  input := agrees.input
  output := agrees.output

/-- Binding variables to fresh locations, with their words in memory. -/
theorem bindAll {ids : List NodeId} {values : List Word} {address : NodeId → Int}
    {stops : Stop → World → Prop} {next : Bindings → World → Prop}
    (agrees : place.Agrees world memory ambient)
    (lengths : ids.length = values.length)
    (words : ∀ (index : Nat) (id : NodeId) (value : Word), ids[index]? = some id →
      values[index]? = some value → memory.word (address id) = value)
    (between : ids.Pairwise fun first second => Memory.Apart (address first) 4 (address second) 4)
    (apart : ∀ id ∈ ids, ∀ entry ∈ place, Memory.Apart (address id) 4 entry.2 4)
    (meets : (Eval.bindAll ids values).Meets stops next world) :
    ∃ bindings more last, next bindings last ∧ place ⊆ more ∧ Agrees more last memory ambient ∧
      (∀ entry ∈ bindings, entry.1 ∈ ids ∧ (entry.2, address entry.1) ∈ more) ∧
      ∀ entry ∈ more, entry ∈ place ∨ ∃ id ∈ ids, entry.2 = address id := by
  induction ids generalizing values place world next with
  | nil => exact ⟨[], place, world, meets, List.Subset.refl _, agrees, nofun, fun _ => .inl⟩
  | cons id ids hypothesis =>
    cases values with
    | nil => cases lengths
    | cons value values =>
      rw [List.pairwise_cons] at between
      have own : memory.word (address id) = value := words 0 id value rfl rfl
      have allocated := agrees.allocate (apart id List.mem_cons_self)
      rw [own] at allocated
      have later : (Eval.bindAll ids values).Meets stops
          (fun bindings => next ((id, world.store.length) :: bindings))
          { world with store := world.store ++ [value] } :=
        Eval.meets_bind.mp (show Eval.Meets _ stops next _ from Eval.meets_bind.mp meets)
      obtain ⟨bindings, more, last, holds, larger, agreesMore, bound, only⟩ :=
        hypothesis allocated (Nat.succ.inj lengths)
          (fun index other word found isWord => words (index + 1) other word found isWord) between.2
          (fun other member entry inside => by
            rcases List.mem_cons.mp inside with rfl | inside
            · exact (between.1 other member).symm
            · exact apart other (List.mem_cons_of_mem _ member) entry inside)
          later
      rw [List.cons_subset] at larger
      refine ⟨(id, world.store.length) :: bindings, more, last, holds, larger.2, agreesMore,
        fun entry member => ?_, fun entry member => ?_⟩
      · rcases List.mem_cons.mp member with rfl | member
        · exact ⟨List.mem_cons_self, larger.1⟩
        · exact ⟨List.mem_cons_of_mem _ (bound entry member).1, (bound entry member).2⟩
      · rcases only entry member with inside | ⟨other, isOther, same⟩
        · rcases List.mem_cons.mp inside with rfl | inside
          · exact .inr ⟨id, List.mem_cons_self, rfl⟩
          · exact .inl inside
        · exact .inr ⟨other, List.mem_cons_of_mem _ isOther, same⟩

/-- Binding the variables among definitions, with their first words in memory. -/
theorem bindDefs {defs : List Def} {address : NodeId → Int} {stops : Stop → World → Prop}
    {next : Bindings → World → Prop} (agrees : place.Agrees world memory ambient)
    (words : ∀ declared ∈ variablesIn defs,
      memory.word (address declared.id) = declared.firstWord)
    (between : ((variablesIn defs).map VarDef.id).Pairwise fun first second =>
      Memory.Apart (address first) 4 (address second) 4)
    (apart : ∀ id ∈ (variablesIn defs).map VarDef.id, ∀ entry ∈ place,
      Memory.Apart (address id) 4 entry.2 4)
    (meets : (Eval.bindAll ((variablesIn defs).map VarDef.id)
      ((variablesIn defs).map VarDef.firstWord)).Meets stops next world) :
    ∃ bindings more last, next bindings last ∧ place ⊆ more ∧ Agrees more last memory ambient ∧
      (∀ entry ∈ bindings, entry.1 ∈ (variablesIn defs).map VarDef.id ∧
        (entry.2, address entry.1) ∈ more) ∧
      ∀ entry ∈ more, entry ∈ place ∨
        ∃ id ∈ (variablesIn defs).map VarDef.id, entry.2 = address id := by
  refine agrees.bindAll (by rw [List.length_map, List.length_map]) ?_ between apart meets
  intro index id value isId isValue
  rw [List.getElem?_map] at isId isValue
  obtain ⟨declared, found, rfl⟩ := Option.map_eq_some_iff.mp isId
  rw [found, Option.map_some, Option.some_inj] at isValue
  rw [← isValue]
  exact words declared (List.mem_of_getElem? found)

end Agrees

/-- The variables of an environment lie where compiled code looks for them. -/
def Bound (place : Place) (layout : Layout) (link : Linkage) (env : Env)
    (chain : List (FunDef × Int)) : Prop :=
  ∀ home hops, env.Around home hops → ∀ entry ∈ home.bindings,
    entry.1 ∈ home.scope.ownVariableIds ∧
      (entry.2, link.addressIn layout (chain.drop hops) entry.1) ∈ place

namespace Bound

variable {layout : Layout} {link : Linkage} {env home : Env} {hops : Nat}
  {chain : List (FunDef × Int)}

/-- More locations bind what fewer do. -/
theorem mono (bound : place.Bound layout link env chain) (larger : place ⊆ more) :
    more.Bound layout link env chain := fun home hops around entry inside =>
  ⟨(bound home hops around entry inside).1, larger (bound home hops around entry inside).2⟩

/-- Variables of an outer environment are bound in the frames further out. -/
theorem around (bound : place.Bound layout link env chain) (around : env.Around home hops) :
    place.Bound layout link home (chain.drop hops) := fun outer more farther entry inside => by
  rw [List.drop_drop]
  exact bound outer _ (around.trans farther) entry inside

/-- Global variables are bound to their rooms. -/
theorem top {defs : List Def} {globals : Bindings}
    (own : ∀ entry ∈ globals, entry.1 ∈ (variablesIn defs).map VarDef.id ∧
      (entry.2, link.addressIn layout [] entry.1) ∈ place) :
    place.Bound layout link (.top defs globals) [] := by
  rintro home hops ⟨⟩
  exact own

/-- Parameters are bound in the frame of their function. -/
theorem enter {function : FunDef} {params : Bindings} {frame : FunDef × Int}
    (bound : place.Bound layout link env chain)
    (own : ∀ entry ∈ params, entry.1 ∈ function.params.map Param.id ∧
      (entry.2, link.addressIn layout (frame :: chain) entry.1) ∈ place) :
    place.Bound layout link (.enter function params env) (frame :: chain) := by
  intro home hops around
  cases around with
  | here => exact own
  | enter around => exact bound home _ around

/-- Variables of a block are bound in the frame of the innermost function. -/
theorem block {defs : List Def} {locals : Bindings} (bound : place.Bound layout link env chain)
    (own : ∀ entry ∈ locals, entry.1 ∈ (variablesIn defs).map VarDef.id ∧
      (entry.2, link.addressIn layout chain entry.1) ∈ place) :
    place.Bound layout link (.block defs locals env) chain := by
  intro home hops around
  cases around with
  | here => exact own
  | block around => exact bound home _ around

/-- Compiled code looks for a variable where its location lies. -/
theorem exists_address {program : Program} {rule : Rule} {site : Site} {target : NodeId}
    {location : Nat} (bound : place.Bound layout link env site.chain)
    (installed : Installed program layout rule executable link) (sized : rule.Implies .sized)
    (grounded : site.Grounded executable program layout link)
    (staged : env.scope.Staged program layout rule link)
    (functions : site.chain.map Prod.fst = env.scope.enclosing)
    (found : env.location? target = some location) :
    ∃ address, site.address? program layout link env.scope target = some address ∧
      site.Reaches executable address ∧ (location, address) ∈ place := by
  obtain ⟨home, hops, around, isOwn⟩ := Env.exists_around_of_location found
  obtain ⟨before, rest, split, -⟩ := List.lookup_eq_some_iff.mp isOwn
  obtain ⟨own, inside⟩ := bound home hops around (target, location)
    (split ▸ List.mem_append_right _ List.mem_cons_self)
  obtain ⟨placed, reaches⟩ :=
    Site.address?_eq installed sized grounded staged functions around.scope own
  exact ⟨_, placed, reaches, inside⟩

end Bound

end Place

namespace Layout

/-- Stacked variables that are at least one word long lie below one another. -/
theorem Stacked.pairwise {layout : Layout} {top bottom : Int} {declared : List VarDef}
    (stacked : layout.Stacked top declared bottom)
    (sized : ∀ own ∈ declared, Initializer.contents? own.items ≠ some []) :
    (declared.map VarDef.id).Pairwise fun first second =>
      layout.offset second + 4 ≤ layout.offset first := by
  induction declared generalizing top with
  | nil => exact .nil
  | cons own rest hypothesis =>
    obtain ⟨access, -, found, -, -, -, later⟩ := stacked
    obtain ⟨-, restSized⟩ := List.forall_mem_cons.mp sized
    refine List.pairwise_cons.mpr ⟨fun id inside => ?_, hypothesis later restSized⟩
    obtain ⟨other, isRest, rfl⟩ := List.mem_map.mp inside
    obtain ⟨lower, contents, isLower, initial, size, -, below⟩ := later.inside isRest
    have nonempty : contents ≠ [] := fun empty => restSized other isRest (empty ▸ initial)
    have positive := List.length_pos_iff.mpr nonempty
    rw [offset_eq isLower, offset_eq found]
    omega

/-- The parameters of a function lie above one another. -/
theorem ParamsLaid.pairwise {layout : Layout} {depth : Nat} {params : List Param}
    (laid : layout.ParamsLaid depth params) :
    (params.map Param.id).Pairwise fun first second =>
      layout.offset first + 4 ≤ layout.offset second := by
  rw [List.pairwise_map, List.pairwise_iff_getElem]
  intro first second isFirst isSecond before
  rw [offset_eq (laid first _ (List.getElem?_eq_getElem isFirst)),
    offset_eq (laid second _ (List.getElem?_eq_getElem isSecond))]
  dsimp only [paramAccess]
  omega

end Layout

/-- The rooms of global variables do not overlap. -/
theorem Installed.rooms_pairwise {program : Program} {layout : Layout} {rule : Rule}
    {executable : Executable} {link : Linkage}
    (installed : Installed program layout rule executable link) (sized : rule.Implies .sized) :
    ((variablesIn program.defs).map VarDef.id).Pairwise fun first second =>
      Memory.Apart (link.room first) 4 (link.room second) 4 := by
  refine installed.distinct.nodup_globals.imp_of_mem fun isFirst isSecond different => ?_
  obtain ⟨first, firstMember, rfl⟩ := List.mem_map.mp isFirst
  obtain ⟨second, secondMember, rfl⟩ := List.mem_map.mp isSecond
  obtain ⟨_, firstFound, firstLong⟩ := Site.exists_room installed sized firstMember
  obtain ⟨_, secondFound, secondLong⟩ := Site.exists_room installed sized secondMember
  have apart := installed.arranged.roomApart first firstMember second secondMember different _ _
    firstFound secondFound
  simp only [Memory.Apart] at apart ⊢
  omega

end ScopeStack
