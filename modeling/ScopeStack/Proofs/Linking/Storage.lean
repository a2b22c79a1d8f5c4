import Mathlib.Data.List.Pairwise
import ScopeStack.Proofs.Linking.Arrangement
import ScopeStack.Proofs.Linking.Loading

/-!
# The storage of a loaded program

The data of a program are blocks: the room of a global variable with the words of its
initializer, the words of the initializer of a local variable, or those of a text. Each room
and each run of words is a stretch of memory. In a loaded program these stretches follow one
another from the end of the code to the end of the data, so that no two of them overlap:
`stretches_of_loaded`.
-/

namespace ScopeStack

open Emission Executable

/-- A program that compiles and loads has a layout and an entry point, its image is in closed
form, and all of it lies in its place. -/
theorem exists_loaded {program : Program} {image : Image} {config : Config}
    {executable : Executable} (distinct : program.Distinct) (compiled : program.compile = .ok image)
    (loads : image.load config = .ok executable) :
    ∃ layout main, Layout.ofProgram program = .ok layout ∧
      Image.ofProgram program layout = .ok image ∧ Shaped program layout main image ∧
      Executable.load config image.code image.data = .ok executable ∧
      Loaded config image.code.items (image.data.map Located.item) executable := by
  obtain ⟨layout, laid, assembled⟩ := Program.compile_eq_ok.mp compiled
  obtain ⟨main, shaped⟩ := shaped_of_ofProgram distinct assembled
  have placed : Executable.load config image.code image.data = .ok executable := by
    rw [Image.load] at loads
    cases done : Executable.load config image.code image.data with
    | error cause =>
      rw [done] at loads
      cases loads
    | ok other =>
      rw [done] at loads
      cases loads
      rfl
  exact ⟨layout, main, laid, assembled, shaped, placed,
    loaded_of_load placed (rooms_nonneg distinct laid shaped)⟩

/-- A label that is bound has the address that it stands for. -/
theorem Executable.label?_eq_addressOf {executable : Executable} {name : String} {place : Word}
    (bound : executable.labels[name]? = some place) :
    executable.label? name = some (addressOf executable.labels name) := by
  rw [label?, addressOf, resolve, bound]
  rfl

section Labels

variable {program : Program} {layout : Layout} {main : FunDef} {image : Image} {config : Config}
  {executable : Executable} (shaped : Shaped program layout main image)
  (loaded : Loaded config image.code.items (image.data.map Located.item) executable)

include shaped loaded

/-- The labels of a data block of a loaded program are bound. -/
theorem label?_dataBlock {own : DataBlock} (inside : own ∈ topData layout program.defs) :
    executable.label? ((Naming.ofProgram program layout).constantLabel own.id) =
        some (addressOf executable.labels ((Naming.ofProgram program layout).constantLabel own.id)) ∧
      ∀ label size, own.room = some (label, size) →
        executable.label? label = some (addressOf executable.labels label) := by
  obtain ⟨address, -, -, -, placed⟩ := dataStarts_of_loaded shaped loaded inside
  obtain ⟨id, room, words⟩ := own
  cases room with
  | none => exact ⟨label?_eq_addressOf placed.1, fun _ _ absent => nomatch absent⟩
  | some room =>
    obtain ⟨roomBound, -, wordsBound, -⟩ := placed
    refine ⟨label?_eq_addressOf wordsBound, ?_⟩
    rintro _ _ ⟨⟩
    exact label?_eq_addressOf roomBound

/-- The label of a function of a loaded program is bound to its entry. -/
theorem label?_entry {function : FunDef} (inside : function ∈ program.functions)
    (hasBody : function.isExternal = false) :
    executable.label? (layout.frameOf function.id).name =
      some ((Linkage.ofExecutable layout (.ofProgram program layout) image executable).entry
        function.id) := by
  obtain ⟨own, member, -, labelled⟩ : BlockOf layout function (programBlocks program layout) :=
    @blockOf_defs (.ofProgram program layout) function (.ofProgram program layout) program.defs
      inside
  obtain ⟨rest, instrs⟩ := labelled hasBody
  obtain ⟨before, after, parts⟩ := @exists_flatMap_eq _ _ _ CodeBlock.instrs _ member
  rw [shaped.code, parts, ← List.append_assoc, ← List.append_assoc] at loaded
  have placed := loaded.codePart.2
  rw [instrs] at placed
  exact label?_eq_addressOf placed.1

end Labels

/-- A stretch of memory. -/
structure Stretch where
  start : Int
  length : Int

namespace Stretch

/-- Two stretches do not overlap. -/
def Apart (first second : Stretch) : Prop :=
  Memory.Apart first.start first.length second.start second.length

/-- A stretch lies between two addresses. -/
def Within (stretch : Stretch) (low high : Int) : Prop :=
  low ≤ stretch.start ∧ 0 ≤ stretch.length ∧ stretch.start + stretch.length ≤ high

/-- What ends before an address does not overlap with what starts there. -/
theorem Within.apart {first second : Stretch} {low middle high : Int}
    (earlier : first.Within low middle) (later : second.Within middle high) : first.Apart second :=
  .inl (Int.le_trans earlier.2.2 later.1)

/-- A stretch that lies between two addresses lies between wider ones. -/
theorem Within.mono {stretch : Stretch} {low high lower higher : Int}
    (within : stretch.Within low high) (below : lower ≤ low) (above : high ≤ higher) :
    stretch.Within lower higher :=
  ⟨Int.le_trans below within.1, within.2.1, Int.le_trans within.2.2 above⟩

end Stretch

/-- The stretches of memory that a data block takes: the room of a global variable, if it is
the block of one, and its words. -/
def Emission.DataBlock.stretches (labels : LabelTable) (naming : Naming) (own : DataBlock) :
    List Stretch :=
  let words : Stretch := ⟨addressOf labels (naming.constantLabel own.id), 4 * own.words.length⟩
  match own.room with
  | some (label, size) => [⟨addressOf labels label, size⟩, words]
  | none => [words]

section Placed

variable {labels : LabelTable} {naming : Naming} {memory : Memory}

/-- The stretches of a block that lies at an address follow one another. -/
theorem Emission.DataBlock.stretches_of_dataAt {own : DataBlock} {address : Int}
    (fits : ∀ place, address ≤ place → place ≤ address + itemsSize (own.items naming) →
      Word.Fits place)
    (roomSize : 0 ≤ own.roomSize)
    (placed : DataAt labels memory address (own.items naming)) :
    (∀ stretch ∈ own.stretches labels naming,
      stretch.Within address (address + itemsSize (own.items naming))) ∧
      (own.stretches labels naming).Pairwise Stretch.Apart := by
  rw [itemsSize_dataBlock] at fits ⊢
  obtain ⟨id, room, words⟩ := own
  cases room with
  | none =>
    simp only [DataBlock.roomSize, Int.zero_add] at fits ⊢
    have start := addressOf_of_fits (fits address (Int.le_refl _) (by omega)) placed.1
    simp only [DataBlock.stretches, List.forall_mem_singleton, List.pairwise_singleton, and_true,
      Stretch.Within, start]
    omega
  | some room =>
    obtain ⟨label, size⟩ := room
    simp only [DataBlock.roomSize] at fits roomSize ⊢
    obtain ⟨roomBound, -, wordsBound, -⟩ := placed
    simp only [Datum.byteSize, Int.add_zero] at wordsBound
    have start := addressOf_of_fits (fits address (Int.le_refl _) (by omega)) roomBound
    have middle := addressOf_of_fits (fits (address + size) (by omega) (by omega)) wordsBound
    simp only [DataBlock.stretches, List.forall_mem_cons, List.pairwise_cons,
      List.not_mem_nil, false_implies, implies_true, List.Pairwise.nil, and_true, start, middle,
      Stretch.Within, Stretch.Apart, Memory.Apart]
    omega

/-- The stretches of blocks that lie one after another do not overlap. -/
theorem stretches_of_dataAt {blocks : List DataBlock} {address : Int}
    (fits : ∀ place, address ≤ place →
      place ≤ address + itemsSize (blocks.flatMap (DataBlock.items naming)) → Word.Fits place)
    (roomSizes : ∀ own ∈ blocks, 0 ≤ own.roomSize)
    (placed : DataAt labels memory address (blocks.flatMap (DataBlock.items naming))) :
    (∀ stretch ∈ blocks.flatMap (DataBlock.stretches labels naming),
      stretch.Within address
        (address + itemsSize (blocks.flatMap (DataBlock.items naming)))) ∧
      (blocks.flatMap (DataBlock.stretches labels naming)).Pairwise Stretch.Apart := by
  induction blocks generalizing address with
  | nil => exact ⟨fun _ inside => (nomatch inside), .nil⟩
  | cons own rest hypothesis =>
    rw [List.forall_mem_cons] at roomSizes
    rw [List.flatMap_cons, dataAt_append] at placed
    simp only [List.flatMap_cons, itemsSize_append] at fits ⊢
    have ownSize : 0 ≤ itemsSize (own.items naming) := by
      rw [itemsSize_dataBlock]
      have := roomSizes.1
      omega
    have restSize : 0 ≤ itemsSize (rest.flatMap (DataBlock.items naming)) := by
      refine itemsSize_nonneg fun bytes inside => ?_
      obtain ⟨other, member, listed⟩ := List.mem_flatMap.mp inside
      have nonneg := roomSizes.2 other member
      obtain ⟨id, room, words⟩ := other
      cases room with
      | none => simp [DataBlock.items, block] at listed
      | some room =>
        simp [DataBlock.items, block] at listed
        simpa [DataBlock.roomSize, listed] using nonneg
    obtain ⟨first, firstApart⟩ := own.stretches_of_dataAt
      (fun place low high => fits place low (by omega)) roomSizes.1 placed.1
    obtain ⟨later, laterApart⟩ := hypothesis (fun place low high => fits place (by omega) (by omega))
      roomSizes.2 placed.2
    refine ⟨fun stretch inside => ?_, List.pairwise_append.mpr
      ⟨firstApart, laterApart, fun one inFirst other inLater => ?_⟩⟩
    · rcases List.mem_append.mp inside with inFirst | inLater
      · exact (first stretch inFirst).mono (Int.le_refl _) (by omega)
      · exact (later stretch inLater).mono (by omega) (by omega)
    · exact (first one inFirst).apart (later other inLater)

end Placed

/-- The rooms of global variables and the words of initializers and texts of a loaded program
lie in its data and do not overlap. -/
theorem stretches_of_loaded {program : Program} {layout : Layout} {main : FunDef} {image : Image}
    {config : Config} {executable : Executable} (shaped : Shaped program layout main image)
    (loaded : Loaded config image.code.items (image.data.map Located.item) executable) :
    (∀ stretch ∈ (topData layout program.defs).flatMap
        (DataBlock.stretches executable.labels (.ofProgram program layout)),
      stretch.Within image.code.size executable.dataEnd) ∧
      ((topData layout program.defs).flatMap
        (DataBlock.stretches executable.labels (.ofProgram program layout))).Pairwise
        Stretch.Apart := by
  have codeSize := instrsSize_nonneg image.code.items
  have dataEnd_eq := loaded.dataEnd_eq
  have placed := loaded.dataAt
  rw [shaped.data] at placed dataEnd_eq
  rw [image.code.size_eq, dataEnd_eq]
  refine stretches_of_dataAt (fun place low high => loaded.fits (by omega) (by omega))
    (fun own inside => ?_) placed
  obtain ⟨address, lies⟩ := exists_blockAt_of_loaded shaped loaded inside
  exact lies.roomSize

/-- The stretches of different data blocks of a loaded program do not overlap. -/
theorem apart_of_mem_stretches {program : Program} {layout : Layout} {main : FunDef} {image : Image}
    {config : Config} {executable : Executable} (shaped : Shaped program layout main image)
    (loaded : Loaded config image.code.items (image.data.map Located.item) executable)
    {first second : DataBlock} (inFirst : first ∈ topData layout program.defs)
    (inSecond : second ∈ topData layout program.defs) (different : first ≠ second)
    {one other : Stretch}
    (isOne : one ∈ first.stretches executable.labels (.ofProgram program layout))
    (isOther : other ∈ second.stretches executable.labels (.ofProgram program layout)) :
    one.Apart other := by
  obtain ⟨-, between⟩ := List.pairwise_flatMap.mp (stretches_of_loaded shaped loaded).2
  -- blocks are listed in one order only, but not overlapping is symmetric
  have symmetric : Std.Symm fun first second : DataBlock =>
      ∀ one ∈ first.stretches executable.labels (.ofProgram program layout),
        ∀ other ∈ second.stretches executable.labels (.ofProgram program layout),
          one.Apart other :=
    ⟨fun _ _ apart one inOne other inOther => (apart other inOther one inOne).symm⟩
  exact between.forall inFirst inSecond different one isOne other isOther

end ScopeStack
