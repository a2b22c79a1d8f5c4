import ScopeStack.Proofs.Execution.Sites

/-!
# Reaching variables

Compiled code finds a variable by following access links to the frame that holds
it. The links lead along the frames of the functions around, whatever functions
have been called on the way, so that the code arrives at the word that belongs to
the variable.
-/

namespace ScopeStack

open Emission Linkage

/-- The place of a local variable or a parameter in its frame. -/
def Layout.offset (layout : Layout) (id : NodeId) : Int :=
  match layout.accesses[id]? with
  | some (.rel access) => access.offset
  | _ => 0

/-- The offset of a variable or parameter that has a place. -/
theorem Layout.offset_eq {layout : Layout} {id : NodeId} {access : RelAccess}
    (found : layout.accesses[id]? = some (.rel access)) : layout.offset id = access.offset := by
  rw [offset, found]

/-- The address of a variable that is defined where given frames are around: in the
innermost frame, or in its own room if there is none. -/
def Linkage.addressIn (link : Linkage) (layout : Layout) (frames : List (FunDef × Int))
    (id : NodeId) : Int :=
  match frames with
  | [] => link.room id
  | own :: _ => own.2 + layout.offset id

namespace Site

/-- The access link of a frame leads to the next one. -/
theorem word_base {program : Program} {layout : Layout} {executable : Executable} {link : Linkage}
    {site : Site} {memory : Memory} (grounded : site.Grounded executable program layout link)
    (stable : site.Stable executable site.bottom site.origin memory) {index : Nat}
    {own outer : FunDef × Int} (found : site.chain[index]? = some own)
    (next : site.chain[index + 1]? = some outer) : memory.word own.2 = Word.ofInt outer.2 := by
  have stands := grounded.frames own (List.mem_of_getElem? found)
  have kept := stands.keeps
  have above := stands.above
  have header := stands.header
  simp only [Frame.headerSize] at kept header
  have chained : site.origin.word own.2 = Word.ofInt outer.2 :=
    grounded.chained index own.2 outer.2 (by rw [List.getElem?_map, found]; rfl)
      (by rw [List.getElem?_map, next]; rfl)
  rw [← chained]
  exact stable.word fun address low high => ⟨kept address (by omega) high, .inl (by omega)⟩

/-- A word of a variable within reach. -/
structure Reaches (executable : Executable) (site : Site) (address : Int) : Prop where
  code : executable.memory.codeSize ≤ address
  inside : address + 4 ≤ executable.memory.size
  apart : ∀ index, address ≤ index → index < address + 4 → ¬site.kept index
  clear : site.bottom ≤ address ∨ address + 4 ≤ executable.dataEnd

/-- The address of a variable for the code at a point. -/
def address? (program : Program) (layout : Layout) (link : Linkage) (site : Site) (scope : Scope)
    (target : NodeId) : Option Int :=
  match layout.accesses[target]? with
  | some (.abs _) => some (link.room target)
  | some (.rel access) =>
    (site.chain[(scope.context program layout).distance access.depth]?).map fun own =>
      own.2 + access.offset
  | none => none

section Address

variable {program : Program} {layout : Layout} {rule : Rule} {executable : Executable}
  {link : Linkage} {site : Site} {scope : Scope} {target : NodeId}

/-- A word of a frame of the site is within reach. -/
theorem reaches_of_hasRoom (installed : Installed program layout rule executable link)
    (grounded : site.Grounded executable program layout link) {own : FunDef × Int} {offset : Int}
    (inside : own ∈ site.chain) (room : (layout.frameOf own.1.id).HasRoom offset) :
    site.Reaches executable (own.2 + offset) := by
  have stands := grounded.frames own inside
  have above := stands.above
  have top := stands.inside
  have header := stands.header
  have parsSize := stands.link
  have bounds := zero_le_bottom installed grounded
  have codeSize := installed.arranged.codeSize_le
  simp only [Frame.HasRoom, Frame.headerSize] at room header
  refine ⟨by omega, by omega, fun index low high => stands.owns index ?_, .inl (by omega)⟩
  simp only [Frame.Owns, Frame.headerSize]
  omega

/-- A variable that is defined in a scope around has its address in the innermost frame
there, and a word at it that is within reach. -/
theorem address?_eq (installed : Installed program layout rule executable link)
    (sized : rule.Implies .sized) (grounded : site.Grounded executable program layout link)
    (staged : scope.Staged program layout rule link)
    (functions : site.chain.map Prod.fst = scope.enclosing) {home : Scope} {hops : Nat}
    (around : scope.Around home hops) (own : target ∈ home.ownVariableIds) :
    site.address? program layout link scope target =
        some (link.addressIn layout (site.chain.drop hops) target) ∧
      site.Reaches executable (link.addressIn layout (site.chain.drop hops) target) := by
  have outward : (site.chain.drop hops).map Prod.fst = home.enclosing := by
    rw [List.map_drop, functions, around.enclosing]
  rcases (staged.around around).ownVariable installed sized own with
    ⟨outermost, declared, member, rfl, access, found, long⟩ |
      ⟨access, owner, found, deep, innermost, room⟩
  · obtain ⟨low, high, -⟩ := installed.arranged.room declared member access found
    have data := installed.arranged.dataEnd_le
    have size := installed.arranged.size
    rw [outermost, List.map_eq_nil_iff] at outward
    rw [outward, address?, found]
    refine ⟨rfl, low, ?_, fun index above below => ?_, .inr ?_⟩
    · dsimp only [addressIn]
      omega
    · exact grounded.rooms declared member access found index above
        (by dsimp only [addressIn] at below; omega)
    · dsimp only [addressIn]
      omega
  · have inFunction : home.enclosing ≠ [] := by
      intro empty
      rw [empty] at innermost
      cases innermost
    have distance := staged.distance around inFunction
    rw [← outward, List.head?_map] at innermost
    obtain ⟨frame, reached, rfl⟩ := Option.map_eq_some_iff.mp innermost
    obtain ⟨rest, chain⟩ := List.head?_eq_some_iff.mp reached
    have same : link.addressIn layout (site.chain.drop hops) target = frame.2 + access.offset := by
      rw [chain, addressIn, Layout.offset_eq found]
    rw [same, address?, found]
    dsimp only
    rw [deep, distance, ← List.head?_drop, reached]
    refine ⟨rfl, reaches_of_hasRoom installed grounded (List.mem_of_mem_drop (i := hops) ?_) room⟩
    rw [chain]
    exact List.mem_cons_self

/-- A visible variable has an address, and a word there that is within reach. -/
theorem exists_address (installed : Installed program layout rule executable link)
    (sized : rule.Implies .sized) (grounded : site.Grounded executable program layout link)
    (staged : scope.Staged program layout rule link)
    (functions : site.chain.map Prod.fst = scope.enclosing)
    (visible : target ∈ scope.variableIds) :
    ∃ address, site.address? program layout link scope target = some address ∧
      site.Reaches executable address := by
  obtain ⟨home, hops, around, own⟩ := Scope.exists_around_of_variable visible
  exact ⟨_, address?_eq installed sized grounded staged functions around own⟩

end Address

section Rules

variable {program : Program} {layout : Layout} {rule : Rule} {executable : Executable}
  {link : Linkage} {watch : Watch executable} {site : Site} {count : Nat} {start stop sp : Int}
  {memory : Memory} {ambient : Ambient}
  (installed : Installed program layout rule executable link)
  (sound : site.Sound executable program layout link watch)
  (here : site.Here executable sp memory ambient)
  (covered : site.start ≤ start ∧ stop ≤ site.stop)

include installed sound here covered

/-- Pushing the base of a frame that is a number of access links away. -/
theorem at_frameOps {hops : Nat} {own : FunDef × Int}
    (held : link.Holds start (frameOps hops) stop) (found : site.chain[hops]? = some own)
    (next : ∀ after, Quiet executable sp memory after → after.word (sp - 4) = Word.ofInt own.2 →
      site.Here executable (sp - 4) after ambient →
      watch.At count site.live stop site.fp (sp - 4) after ambient) :
    watch.At count site.live start site.fp sp memory ambient := by
  induction hops generalizing own stop with
  | zero =>
    obtain ⟨fetch, rfl⟩ := held
    have same := sound.innermost own (by rw [List.head?_eq_getElem?, found]; rfl)
    refine at_regn installed sound here ⟨covered.1, ?_⟩ fetch fun after quiet word moved =>
      next after quiet (same ▸ word) moved
    simp only [Opcode.size] at covered
    omega
  | succ hops hypothesis =>
    have split : frameOps (hops + 1) = frameOps hops ++ [.load] := by
      rw [frameOps, List.replicate_succ', frameOps, List.cons_append]
    rw [split, holds_append] at held
    obtain ⟨middle, first, fetch, rfl⟩ := held
    have longer := (List.getElem?_eq_some_iff.mp found).1
    have before : site.chain[hops]? = some site.chain[hops] := List.getElem?_eq_getElem (by omega)
    have lies := first.le
    simp only [Opcode.size] at covered next
    refine hypothesis ⟨covered.1, by omega⟩ first before fun after quiet word moved => ?_
    have stands := sound.frames _ (List.mem_of_getElem? before)
    have above := stands.above
    have inside := stands.inside
    have header := stands.header
    have room := stands.link
    have bounds := zero_le_bottom installed sound.toGrounded
    have below := here.below
    simp only [Frame.headerSize] at header
    have address : (after.word (sp - 4)).toInt = site.chain[hops].2 := by
      rw [word]
      exact installed.arranged.toInt_ofInt (by omega) (by omega)
    have readable : after.Addressable (after.word (sp - 4)).toInt 4 := by
      rw [address]
      refine moved.stacked.addressable ?_ ?_
      · have heap := here.stacked.heap
        omega
      · rw [moved.size, sound.size]
        omega
    refine at_load installed sound moved ⟨by omega, by omega⟩ fetch (by omega)
      (fun _ later again loaded stays => ?_) fun unreadable => absurd readable unreadable
    rw [address] at loaded
    have sums : sp - 4 + 4 = sp := by omega
    rw [sums] at again
    exact next later (quiet.trans again)
      (loaded.trans (word_base sound.toGrounded moved.stable before found))
      stays

/-- Pushing the address of a variable. -/
theorem at_variable {scope : Scope} {id target : NodeId} {address : Int}
    (held : link.VariableAt (scope.context program layout) id start stop)
    (linked : program.definition? id = some target)
    (placed : site.address? program layout link scope target = some address)
    (next : ∀ after, Quiet executable sp memory after → after.word (sp - 4) = Word.ofInt address →
      site.Here executable (sp - 4) after ambient →
      watch.At count site.live stop site.fp (sp - 4) after ambient) :
    watch.At count site.live start site.fp sp memory ambient := by
  rw [VariableAt, show (scope.context program layout).program.definition? id = some target from
    linked] at held
  rw [address?] at placed
  dsimp only [Scope.context] at held placed
  split at placed
  next access found =>
    rw [found] at held
    obtain ⟨fetch, rfl⟩ := held
    cases placed
    simp only [Opcode.size] at covered
    exact at_push installed.slots sound here ⟨covered.1, by omega⟩ fetch next
  next access found =>
    rw [found] at held
    obtain ⟨middle, first, fetchOffset, fetchAdd, rfl⟩ := holds_append.mp held
    obtain ⟨own, reached, rfl⟩ := Option.map_eq_some_iff.mp placed
    have lies := first.le
    have below := here.below
    simp only [Opcode.size] at covered fetchAdd next
    refine at_frameOps installed sound here ⟨covered.1, by omega⟩ first reached
      fun after quiet base moved => ?_
    refine at_push installed.slots sound moved ⟨by omega, by omega⟩ fetchOffset
      fun later again offset stays => ?_
    have sums : sp - 4 - 4 + 4 = sp - 4 := by omega
    have kept : later.word (sp - 4) = Word.ofInt own.2 := by
      rw [← base]
      exact again.word fun index low high => .inr low
    refine at_binary installed sound stays ⟨by omega, by omega⟩ fetchAdd (by omega)
      (fun value added last more sum ends => ?_) fun undefined => by cases undefined
    rw [sums] at added sum ends ⊢
    rw [show sp - 4 - 4 + 8 = sp by omega] at more
    rw [BinaryOp.eval?, kept, offset] at added
    cases added
    refine next last (quiet.trans ((again.mono (by omega)).trans more)) (sum.trans ?_) ends
    exact Word.ofInt_add own.2 access.offset
  next => cases placed

/-- Pushing the value of a variable. -/
theorem at_fetch {scope : Scope} {id target : NodeId} {address : Int}
    (held : link.VariableAt (scope.context program layout) id start stop)
    (fetch : link.slots[stop]? = some .load) (room : stop < site.stop)
    (linked : program.definition? id = some target)
    (placed : site.address? program layout link scope target = some address)
    (reaches : site.Reaches executable address)
    (next : ∀ after, Quiet executable sp memory after →
      after.word (sp - 4) = memory.word address → site.Here executable (sp - 4) after ambient →
      watch.At count site.live (stop + 1) site.fp (sp - 4) after ambient) :
    watch.At count site.live start site.fp sp memory ambient := by
  have lies := held.le
  have below := here.below
  have code := installed.arranged.codeSize_nonneg
  have low := reaches.code
  have high := reaches.inside
  refine at_variable installed sound here covered held linked placed
    fun after quiet word moved => ?_
  have same : (after.word (sp - 4)).toInt = address := by
    rw [word]
    exact installed.arranged.toInt_ofInt (by omega) (by omega)
  have readable : after.Addressable (after.word (sp - 4)).toInt 4 := by
    rw [same]
    refine ⟨?_, ?_⟩
    · rw [moved.stable.codeSize, sound.codeSize]
      exact low
    · rw [moved.size, sound.size]
      exact high
  have unchanged : after.word address = memory.word address := by
    have clear := reaches.clear
    refine quiet.word fun index above short => ?_
    omega
  refine at_load installed sound moved ⟨by omega, room⟩ fetch (by omega)
    (fun _ later again loaded stays => ?_) fun unreadable => absurd readable unreadable
  rw [same, unchanged] at loaded
  rw [show sp - 4 + 4 = sp by omega] at again
  exact next later (quiet.trans again) loaded stays

/-- Giving a variable the value on top of the stack. -/
theorem at_assign {scope : Scope} {id target : NodeId} {address : Int}
    (held : link.VariableAt (scope.context program layout) id start stop)
    (fetch : link.slots[stop]? = some .save) (inside : stop < site.stop)
    (linked : program.definition? id = some target)
    (placed : site.address? program layout link scope target = some address)
    (reaches : site.Reaches executable address) (room : sp + 4 ≤ site.bottom)
    (next : ∀ middle after, Quiet executable sp memory middle →
      Memory.Put middle address (memory.word sp) after →
      site.Here executable (sp + 4) after ambient →
      watch.At count site.live (stop + 1) site.fp (sp + 4) after ambient) :
    watch.At count site.live start site.fp sp memory ambient := by
  have lies := held.le
  have code := installed.arranged.codeSize_nonneg
  have low := reaches.code
  have high := reaches.inside
  refine at_variable installed sound here covered held linked placed
    fun middle quiet word moved => ?_
  have value : middle.word (sp - 4 + 4) = memory.word sp := by
    rw [show sp - 4 + 4 = sp by omega]
    exact quiet.word fun index above short => .inr above
  have writable : middle.Addressable address 4 := by
    refine ⟨?_, ?_⟩
    · rw [moved.stable.codeSize, sound.codeSize]
      exact low
    · rw [moved.size, sound.size]
      exact high
  refine at_save installed sound moved ⟨by omega, inside⟩ fetch (by omega)
    (by rw [word]; exact installed.arranged.toInt_ofInt (by omega) (by omega)) writable reaches.apart
    fun after put popped => ?_
  rw [value] at put
  rw [show sp - 4 + 8 = sp + 4 by omega] at popped ⊢
  exact next middle after quiet put popped

end Rules

/-- Memory in which at most the free part of the stack and a range of bytes have
changed. -/
abbrev Filled (executable : Executable) (sp low high : Int) (before after : Memory) : Prop :=
  Memory.Intact (fun address =>
    (address < executable.dataEnd ∨ sp ≤ address) ∧ (address < low ∨ high ≤ address)) before after

/-- Filling local variables leaves safe bytes alone. -/
theorem stable_of_filled {executable : Executable} {site : Site} {frame : Frame}
    {sp size low high : Int} {memory after : Memory}
    (filled : Filled executable sp (site.fp + low) (site.fp + high) memory after)
    (stands : frame.Stands site.kept site.bottom size site.fp) (above : -frame.varsSize ≤ low)
    (below : high ≤ -Frame.headerSize) : site.Stable executable sp memory after :=
  Memory.Intact.mono filled fun address safe => by
    refine ⟨safe.2.symm, ?_⟩
    rcases Int.lt_or_le address (site.fp + low) with short | long
    · exact .inl short
    · refine .inr (Int.not_lt.mp fun inside => stands.owns address (.inl ?_) safe.1)
      omega

section Initialization

variable {program : Program} {layout : Layout} {rule : Rule} {executable : Executable}
  {link : Linkage} {watch : Watch executable} {site : Site} {count : Nat} {sp : Int}
  {memory : Memory} {ambient : Ambient}
  (installed : Installed program layout rule executable link)
  (sound : site.Sound executable program layout link watch)
  (here : site.Here executable sp memory ambient)

include installed sound here

/-- Giving a local variable its initial words. -/
theorem at_local {scope : Scope} {start stop size : Int} {declared : VarDef} {flat : List Int}
    {access : RelAccess} (covered : site.start ≤ start ∧ stop ≤ site.stop)
    (held : link.LocalAt (scope.context program layout) declared start stop)
    (measured : Layout.measure declared = .ok (flat, size))
    (sized : Initializer.contents? declared.items ≠ some []) (fit : declared.LengthsFit)
    (found : layout.accesses[declared.id]? = some (.rel access))
    (member : ⟨declared.id, none, flat⟩ ∈ topData layout program.defs)
    (low : site.bottom ≤ site.fp + access.offset)
    (high : site.fp + access.offset + size ≤ executable.memory.size)
    (free : ∀ address, site.fp + access.offset ≤ address →
      address < site.fp + access.offset + size → ¬site.kept address)
    (next : ∀ after : Memory,
      Filled executable sp (site.fp + access.offset) (site.fp + access.offset + size) memory after →
      after.word (site.fp + access.offset) = declared.firstWord →
      site.Here executable sp after ambient →
      watch.At count site.live stop site.fp sp after ambient) :
    watch.At count site.live start site.fp sp memory ambient := by
  rw [LocalAt, show (scope.context program layout).layout.accesses[declared.id]? =
    some (.rel access) from found] at held
  obtain ⟨runs, read, rfl, rfl⟩ := Layout.exists_runs_of_measure fit measured
  obtain ⟨contents, -⟩ := Initializer.contents?_of_runs read
  obtain ⟨fetchBase, fetchOffset, fetchAdd, fetchWords, fetchInit, rfl⟩ := held
  simp only [Opcode.size] at covered fetchOffset fetchAdd fetchWords fetchInit next
  have below := here.below
  have bounds := zero_le_bottom installed sound.toGrounded
  have codeSize := installed.arranged.codeSize_le
  obtain ⟨-, stopWords, -⟩ := installed.arranged.words _ member
  refine at_regn installed sound here ⟨covered.1, by omega⟩ fetchBase
    fun first quiet base moved => ?_
  refine at_push installed.slots sound moved ⟨by omega, by omega⟩ fetchOffset
    fun second again offset stays => ?_
  have kept : second.word (sp - 4) = Word.ofInt site.fp := by
    rw [← base]
    exact again.word fun index above short => .inr above
  have sums : sp - 4 - 4 + 4 = sp - 4 := by omega
  refine at_binary installed sound stays ⟨by omega, by omega⟩ fetchAdd (by omega)
    (fun value added third more sum summed => ?_) fun undefined => by cases undefined
  rw [sums] at added sum summed ⊢
  rw [show sp - 4 - 4 + 8 = sp by omega] at more
  rw [BinaryOp.eval?, kept, offset, Word.ofInt_add] at added
  cases added
  refine at_push installed.slots sound summed ⟨by omega, by omega⟩ fetchWords
    fun fourth last words pushed => ?_
  have place : fourth.word (sp - 4 - 4 + 4) = Word.ofInt (site.fp + access.offset) := by
    rw [sums, ← sum]
    exact last.word fun index above short => .inr above
  have quietly : Quiet executable sp memory fourth :=
    quiet.trans ((again.mono (by omega)).trans (more.trans (last.mono (by omega))))
  refine at_initialize installed.arranged installed.slots sound pushed ⟨by omega, by omega⟩ fetchInit
    (by omega) read member rfl words place (by omega) high
    (.inl (by dsimp only at stopWords ⊢; omega)) free fun after outside written popped => ?_
  rw [show sp - 4 - 4 + 8 = sp by omega] at popped ⊢
  refine next after ?_ (VarDef.word_of_contents contents sized written) popped
  exact (Memory.Intact.mono quietly fun address safe => safe.1).trans
    (outside.mono fun address safe => safe.2)

/-- Giving the variables of a block their initial words. -/
theorem at_locals {scope : Scope} {owner : FunDef} {label : String} {depth : Nat} {defs : List Def}
    {before after : Layout.Extent} {start stop : Int}
    (covered : site.start ≤ start ∧ stop ≤ site.stop)
    (held : link.LocalsAt (scope.context program layout) defs start stop)
    (laid : layout.DefsLaid label depth defs before after)
    (sized : ∀ declared ∈ variablesIn defs, Initializer.contents? declared.items ≠ some [])
    (fit : ∀ declared ∈ variablesIn defs, declared.LengthsFit)
    (data : ∀ own ∈ localsData layout defs, own ∈ topData layout program.defs)
    (innermost : site.chain.head? = some (owner, site.fp))
    (low : -(layout.frameOf owner.id).varsSize ≤ after.locals.bottom)
    (high : before.locals.bottom ≤ -Frame.headerSize)
    (next : ∀ last : Memory, Filled executable sp (site.fp + after.locals.bottom)
        (site.fp + before.locals.bottom) memory last →
      (∀ declared ∈ variablesIn defs, ∀ access : RelAccess,
        layout.accesses[declared.id]? = some (.rel access) →
        last.word (site.fp + access.offset) = declared.firstWord) →
      site.Here executable sp last ambient →
      watch.At count site.live stop site.fp sp last ambient) :
    watch.At count site.live start site.fp sp memory ambient := by
  induction defs generalizing before start memory with
  | nil =>
    obtain rfl : stop = start := held
    exact next memory (.refl _ _) (fun declared inside => nomatch inside) here
  | cons definition rest hypothesis =>
    cases definition with
    | fn function =>
      obtain ⟨labels, -, remaining⟩ := laid
      exact hypothesis here covered held remaining sized fit data high next
    | var declared =>
      obtain ⟨middle, own, later⟩ := held
      obtain ⟨locals, ⟨flat, size, measured, lower, access, same, -, found⟩, remaining⟩ := laid
      obtain ⟨runs, -, -, sizeWords⟩ :=
        Layout.exists_runs_of_measure (fit declared List.mem_cons_self) measured
      have restFit (other : VarDef) (inside : other ∈ variablesIn rest) : other.LengthsFit :=
        fit other (List.mem_cons_of_mem _ inside)
      have lowest := (remaining.adds.stacked restFit).le
      have initial : access.inits = some flat := by rw [same]
      have offset : access.offset = locals.bottom := by rw [same]
      have block : (⟨declared.id, none, flat⟩ : DataBlock) ∈ topData layout program.defs := by
        refine data _ ?_
        simp [localsData, found, Access.inits?, initial]
      have stands : (layout.frameOf owner.id).Stands site.kept site.bottom executable.memory.size
          site.fp := sound.frames _ (List.mem_of_mem_head? innermost)
      have above := stands.above
      have inside := stands.inside
      have bounds := stands.link
      have header := stands.header
      have below := here.below
      have lies := LocalsAt.le later
      simp only [Frame.headerSize] at high header
      dsimp only at lowest
      have ends : site.fp + access.offset + size = site.fp + before.locals.bottom := by omega
      refine at_local installed sound here ⟨covered.1, by omega⟩ own measured
        (sized declared List.mem_cons_self) (fit declared List.mem_cons_self) found block (by omega)
        (by omega)
        (fun address above short => stands.owns address (.inl ?_)) fun first filled word moved => ?_
      · simp only [Frame.headerSize]
        omega
      have starts : start ≤ middle := by
        rw [LocalAt, show (scope.context program layout).layout.accesses[declared.id]? =
          some (.rel access) from found] at own
        exact Holds.le own
      refine hypothesis moved ⟨by omega, covered.2⟩ later remaining
        (fun other inside => sized other (List.mem_cons_of_mem _ inside)) restFit
        (fun own inside => data own (List.mem_cons_of_mem _ inside))
        (by dsimp only [Frame.headerSize]; omega) fun last more words stays => ?_
      dsimp only at more
      refine next last ?_ (fun other member place located => ?_) stays
      · exact (filled.mono fun address safe => ⟨safe.1, by omega⟩).trans
          (more.mono fun address safe => ⟨safe.1, by omega⟩)
      · rcases List.mem_cons.mp member with rfl | member
        · rw [found] at located
          cases located
          rw [← word]
          exact more.word fun index above short => ⟨.inr (by omega), .inr (by omega)⟩
        · exact words other member place located

end Initialization

end Site

end ScopeStack
