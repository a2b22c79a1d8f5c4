import ScopeStack.Pipeline
import ScopeStack.Proofs.Compilation
import ScopeStack.Proofs.Renaming.Emission

/-!
# Compilation depends neither on numbers nor on locations

The images of a program and of the program with its nodes renumbered are put together from the same
pieces. Numbers do not get into an image at all, except as the keys under which the code and the
data of single nodes are found, and locations get into it as spans only.
-/

namespace ScopeStack

namespace SameLines

variable {α : Type} {located : Prop} {lines other : List (Located α)}

/-- Such lines have the same items. -/
theorem items_eq (same : SameLines located lines other) :
    lines.map Located.item = other.map Located.item := by
  induction same with
  | nil => rfl
  | cons line _ hypothesis => rw [List.map_cons, List.map_cons, line.1, hypothesis]

/-- Lines that stem from the same places are the same. -/
theorem eq (same : SameLines located lines other) (asked : located) : lines = other := by
  induction same with
  | nil => rfl
  | @cons line another _ _ same _ hypothesis =>
    obtain ⟨item, span⟩ := line
    obtain ⟨rfl, sameSpan⟩ := same
    obtain rfl := sameSpan asked
    rw [hypothesis]

/-- Such code has the same size. -/
theorem size_eq {code code' : Code} (same : SameLines located code code') :
    code.size = code'.size := by
  induction same with
  | nil => rfl
  | cons line _ hypothesis => rw [Code.size, Code.size, line.1, hypothesis]

/-- Code starts with the same label. -/
theorem codeLabel_eq (function : FunDef) (renumber : NodeId → NodeId) {code code' : Code}
    (same : SameLines located code code') :
    Emission.codeLabel function code = Emission.codeLabel (function.rename renumber) code' := by
  rw [Emission.codeLabel, Emission.codeLabel, function.name_rename]
  cases same with
  | nil => rfl
  | cons line _ => rw [List.head?_cons, List.head?_cons, Option.bind_some, Option.bind_some, line.1]

end SameLines

/-- A node has the same lines under its new number. -/
theorem Table.Moved.sameLines_getD {α : Type} {renumber : NodeId → NodeId} {located : Prop}
    {table table' : Table (List (Located α))}
    (moved : Table.Moved renumber (SameLines located) table table') (id : NodeId) :
    SameLines located (table[id]?.getD []) (table'[renumber id]?.getD []) := by
  rcases moved.entries id with ⟨absent, absent'⟩ | ⟨lines, lines', found, found', same⟩
  · rw [absent, absent']
    exact .nil
  · rw [found, found']
    exact same

/-- The entry without its place in the source. -/
def SourceMapEntry.unlocated (entry : SourceMapEntry) : SourceMapEntry :=
  { entry with span := none }

/-- The line without its place in the source. -/
def ListingLine.unlocated (line : ListingLine) : ListingLine := { line with span := none }

/-- The entries cover the same code, and name the same place where that is asked for. -/
def SameEntries (located : Prop) : List SourceMapEntry → List SourceMapEntry → Prop :=
  List.Forall₂ fun entry another =>
    entry.unlocated = another.unlocated ∧ (located → entry.span = another.span)

/-- Two images are the same up to the numbers under which the code and the data of nodes are found,
and up to spans unless they are asked for. -/
structure Image.Renamed (renumber : NodeId → NodeId) (located : Prop) (image other : Image) :
    Prop where
  code : SameLines located image.code other.code
  data : SameLines located image.data other.data
  entries : SameEntries located image.sourceMap.entries other.sourceMap.entries
  nodeCode : Table.Moved renumber (SameLines located) image.nodeCode other.nodeCode
  nodeData : Table.Moved renumber (SameLines located) image.nodeData other.nodeData

namespace Emission

variable {renumber : NodeId → NodeId} {located : Prop} {context other : Context}

/-- A global variable is emitted alike. -/
theorem sameEmit_emitGlobal (injective : Function.Injective renumber)
    (renamed : context.Renamed renumber located other) (declared : VarDef) :
    SameEmit renumber located (fun _ _ => True) (emitGlobal context declared)
      (emitGlobal other (declared.rename renumber)) := by
  have span := renamed.span? declared.id
  refine .bind (.lift (renamed.access declared.id)) fun access _ same => ?_
  subst same
  cases access with
  | rel access => exact .throw ⟨⟨.point 0 0, rfl⟩, fun _ => rfl⟩
  | abs access =>
    refine sameEmit_freshConstant.bind fun label _ same => ?_
    subst same
    refine (sameEmit_addData injective declared.id (.ofItems span _)).seq fun _ _ => ?_
    exact sameEmit_record injective declared.id (.ofItems span _)

/-- A program is emitted alike. -/
theorem sameEmit_emitTop (injective : Function.Injective renumber)
    (renamed : context.Renamed renumber located other) (defs : List Def) :
    SameEmit renumber located (fun _ _ => True) (emitTop context defs)
      (emitTop other (renameDefs renumber defs)) := by
  induction defs with
  | nil => exact .pure trivial
  | cons definition rest hypothesis =>
    cases definition with
    | var declared =>
      exact (sameEmit_emitGlobal injective renamed declared).seq fun _ _ => hypothesis
    | fn function =>
      exact (sameEmit_emitFunction injective function renamed).seq fun _ _ => hypothesis

section Tables

variable {table table' : Table Code}

/-- The code that initializes global variables is the same. -/
theorem sameLines_globalCode (moved : Table.Moved renumber (SameLines located) table table')
    (defs : List Def) :
    SameLines located (globalCode table defs) (globalCode table' (renameDefs renumber defs)) := by
  induction defs with
  | nil => exact .nil
  | cons definition rest hypothesis =>
    cases definition with
    | fn function => exact hypothesis
    | var declared => exact (moved.sameLines_getD declared.id).append hypothesis

/-- The code at address zero is the same. -/
theorem alike_startCode (renamed : context.Renamed renumber located other)
    (moved : Table.Moved renumber (SameLines located) table table') :
    Alike (EmissionError.Renamed renumber located) (SameLines located) (startCode context table)
      (startCode other table') := by
  rw [startCode, startCode, renamed.program.entry]
  cases context.program.entry? with
  | none => exact .error ⟨⟨.point 0 0, rfl⟩, fun _ => rfl⟩
  | some main =>
    dsimp only [Option.map_some]
    rw [main.id_rename, renamed.program.defs]
    refine (renamed.frame main.id).bind fun frame _ same => ?_
    subst same
    exact .ok ((sameLines_globalCode moved _).append (.ofItems (fun _ => rfl) _))

/-- The code of functions is the same. -/
theorem sameLines_functionCode (moved : Table.Moved renumber (SameLines located) table table')
    (functions : List FunDef) :
    SameLines located (functionCode table functions)
      (functionCode table' (functions.map (FunDef.rename renumber))) := by
  induction functions with
  | nil => exact .nil
  | cons function rest hypothesis =>
    rw [functionCode, functionCode, List.map_cons, List.flatMap_cons, List.flatMap_cons,
      function.id_rename]
    exact (moved.sameLines_getD function.id).append hypothesis

/-- The entries of functions in the source map are the same. -/
theorem sameEntries_functionEntries (renamed : context.Renamed renumber located other)
    (moved : Table.Moved renumber (SameLines located) table table') (functions : List FunDef)
    (address : Int) :
    SameEntries located (functionEntries context table address functions)
      (functionEntries other table' address (functions.map (FunDef.rename renumber))) := by
  induction functions generalizing address with
  | nil => exact .nil
  | cons function rest hypothesis =>
    rw [List.map_cons, functionEntries, functionEntries, function.id_rename]
    rcases moved.entries function.id with ⟨absent, absent'⟩ | ⟨own, own', found, found', same⟩
    · rw [absent, absent']
      exact hypothesis address
    · rw [found, found']
      dsimp only
      rw [same.codeLabel_eq function renumber, same.size_eq]
      exact .cons ⟨rfl, renamed.span? function.id⟩ (hypothesis _)

/-- The data of nodes are the same in the order of the nodes. -/
theorem sameLines_orderedData {table table' : Table Data}
    (moved : Table.Moved renumber (SameLines located) table table') (order : List NodeId) :
    SameLines located (orderedData table order) (orderedData table' (order.map renumber)) := by
  induction order with
  | nil => exact .nil
  | cons id rest hypothesis => exact (moved.sameLines_getD id).append hypothesis

end Tables

end Emission

open Emission in
/-- Images are assembled alike. -/
theorem Image.alike_ofProgram {renumber : NodeId → NodeId} {located : Prop}
    (injective : Function.Injective renumber) {program other : Program} {layout layout' : Layout}
    (renamed : program.Renamed renumber located other) (laid : layout.Renamed renumber layout') :
    Alike (EmissionError.Renamed renumber located) (Image.Renamed renumber located)
      (Image.ofProgram program layout) (Image.ofProgram other layout') := by
  have contexts : Context.Renamed renumber located ⟨program, layout, []⟩ ⟨other, layout', []⟩ :=
    ⟨renamed, laid, rfl⟩
  have functions : other.functions = program.functions.map (FunDef.rename renumber) := by
    rw [Program.functions, renamed.defs, functionsOfDefs_rename, Program.functions]
  have start : Progress.Renamed renumber located .empty .empty := ⟨.empty, .empty, rfl, rfl, rfl⟩
  have emitted := sameEmit_emitTop injective contexts program.defs .empty .empty start
  rw [Image.ofProgram, Image.ofProgram, renamed.defs, functions]
  refine emitted.bind ?_
  rintro ⟨⟨⟩, progress⟩ ⟨⟨⟩, progress'⟩ ⟨-, same⟩
  refine (alike_startCode contexts same.code).bind fun code code' sameStart => .ok ?_
  constructor
  · exact sameStart.append (sameLines_functionCode same.code _)
  · rw [same.dataOrder]
    exact sameLines_orderedData same.data _
  · rw [sameStart.size_eq]
    exact sameEntries_functionEntries contexts same.code _ _
  · exact same.code
  · exact same.data

namespace Failure

/-- The failure with the number of the node that it mentions changed. -/
def rename (renumber : NodeId → NodeId) : Failure → Failure
  | .emission error => .emission (error.rename renumber)
  | other => other

/-- The failure at another place, if it mentions one. -/
def respan (span : Span) : Failure → Failure
  | .emission error => .emission (error.respan span)
  | other => other

/-- The failures are the same up to the number that they mention, and at the same place where that
is asked for. -/
def Renamed (renumber : NodeId → NodeId) (located : Prop) (failure other : Failure) : Prop :=
  (∃ span, other = (failure.rename renumber).respan span) ∧
    (located → other = failure.rename renumber)

/-- A layout that fails does so for the same reason. -/
theorem renamed_layout {renumber : NodeId → NodeId} {located : Prop} (error : LayoutError) :
    Renamed renumber located (.layout error) (.layout error) :=
  ⟨⟨.point 0 0, rfl⟩, fun _ => rfl⟩

/-- An emission that fails does so for the renamed reason. -/
theorem renamed_emission {renumber : NodeId → NodeId} {located : Prop} {error other : EmissionError}
    (renamed : error.Renamed renumber located other) :
    Renamed renumber located (.emission error) (.emission other) := by
  obtain ⟨⟨span, moved⟩, same⟩ := renamed
  exact ⟨⟨span, congrArg emission moved⟩, fun asked => congrArg emission (same asked)⟩

/-- A failure is not changed by numbers that stay. -/
theorem rename_id (failure : Failure) : failure.rename id = failure := by
  rcases failure with error | error | error | fault <;> try rfl
  cases error <;> rfl

end Failure

/-- Programs compile alike. -/
theorem Program.alike_compile {renumber : NodeId → NodeId} {located : Prop}
    (injective : Function.Injective renumber) {program other : Program}
    (renamed : program.Renamed renumber located other) :
    Alike (Failure.Renamed renumber located) (Image.Renamed renumber located) program.compile
      other.compile := by
  have laid : Alike (Failure.Renamed renumber located) (Layout.Renamed renumber)
      ((Layout.ofProgram program).mapError .layout)
      ((Layout.ofProgram other).mapError .layout) := by
    refine (Layout.alike_ofProgram injective renamed).mapError ?_
    rintro error _ rfl
    exact Failure.renamed_layout error
  have compiled : Alike (Failure.Renamed renumber located)
      (fun result result' => Image.Renamed renumber located result.2 result'.2)
      program.compileWithLayout other.compileWithLayout := by
    refine laid.bind fun layout layout' moved => ?_
    refine ((Image.alike_ofProgram injective renamed moved).mapError fun _ _ same =>
      Failure.renamed_emission same).bind fun image image' same => .ok same
  exact compiled.bind fun result result' same => .ok same

/-- Two images are the same, but for the numbers under which the code and the data of nodes are
found. -/
structure Image.SameButNumbers (renumber : NodeId → NodeId) (image other : Image) : Prop where
  code : other.code = image.code
  data : other.data = image.data
  sourceMap : other.sourceMap = image.sourceMap
  listing : other.listingText = image.listingText
  hash : other.hash = image.hash
  nodeCode : ∀ id, other.nodeCode[renumber id]? = image.nodeCode[id]?
  nodeData : ∀ id, other.nodeData[renumber id]? = image.nodeData[id]?

/-- Two images are the same, but for the places in the source that their parts stem from. -/
structure Image.SameButSpans (image other : Image) : Prop where
  code : other.code.map Located.item = image.code.map Located.item
  data : other.data.map Located.item = image.data.map Located.item
  sourceMap : other.sourceMap.entries.map SourceMapEntry.unlocated =
    image.sourceMap.entries.map SourceMapEntry.unlocated
  listing : other.listing.map ListingLine.unlocated = image.listing.map ListingLine.unlocated
  nodeCode : ∀ id : NodeId, other.nodeCode[id]?.map (List.map Located.item) =
    image.nodeCode[id]?.map (List.map Located.item)
  nodeData : ∀ id : NodeId, other.nodeData[id]?.map (List.map Located.item) =
    image.nodeData[id]?.map (List.map Located.item)

namespace SameEntries

variable {located : Prop} {entries other : List SourceMapEntry}

/-- The entries of a source map are the same but for their locations. -/
theorem unlocated_eq (same : SameEntries located entries other) :
    other.map SourceMapEntry.unlocated = entries.map SourceMapEntry.unlocated := by
  induction same with
  | nil => rfl
  | cons entry _ hypothesis => rw [List.map_cons, List.map_cons, entry.1, hypothesis]

/-- The entries of a source map are the same if locations are. -/
theorem eq (same : SameEntries located entries other) (asked : located) : other = entries := by
  induction same with
  | nil => rfl
  | @cons entry another _ _ same _ hypothesis =>
    obtain ⟨label, address, size, span⟩ := entry
    obtain ⟨label', address', size', span'⟩ := another
    obtain ⟨⟨⟩, sameSpan⟩ := same
    obtain rfl := sameSpan asked
    rw [hypothesis]

end SameEntries

namespace Image.Renamed

variable {renumber : NodeId → NodeId} {located : Prop} {image other : Image}

/-- Listings of code are the same but for their locations. -/
theorem code_listing {code code' : Code} (same : SameLines located code code') (address : Int) :
    (code'.listing address).map ListingLine.unlocated =
      (code.listing address).map ListingLine.unlocated := by
  induction same generalizing address with
  | nil => rfl
  | cons line _ hypothesis =>
    rw [Code.listing, Code.listing, List.map_cons, List.map_cons, line.1, hypothesis]
    rfl

/-- Listings of data are the same but for their locations. -/
theorem data_listing {data data' : Data} (same : SameLines located data data') (address : Int) :
    (data'.listing address).map ListingLine.unlocated =
      (data.listing address).map ListingLine.unlocated := by
  induction same generalizing address with
  | nil => rfl
  | cons line _ hypothesis =>
    rw [Data.listing, Data.listing, List.map_cons, List.map_cons, line.1, hypothesis]
    rfl

/-- A node has the same items under its new number. -/
theorem getElem?_items_eq {α : Type} {table table' : Table (List (Located α))}
    (moved : Table.Moved renumber (SameLines located) table table') (id : NodeId) :
    table'[renumber id]?.map (List.map Located.item) = table[id]?.map (List.map Located.item) := by
  rcases moved.entries id with ⟨absent, absent'⟩ | ⟨lines, lines', found, found', same⟩
  · rw [absent, absent']
  · rw [found, found', Option.map_some, Option.map_some, same.items_eq]

/-- A node has the same lines under its new number, if locations are the same. -/
theorem getElem?_eq {α : Type} {table table' : Table (List (Located α))} (asked : located)
    (moved : Table.Moved renumber (SameLines located) table table') (id : NodeId) :
    table'[renumber id]? = table[id]? := by
  rcases moved.entries id with ⟨absent, absent'⟩ | ⟨lines, lines', found, found', same⟩
  · rw [absent, absent']
  · rw [found, found', same.eq asked]

/-- Where spans are asked for, nothing but the keys of nodes is different. -/
theorem sameButNumbers (renamed : image.Renamed renumber located other) (asked : located) :
    image.SameButNumbers renumber other := by
  have code : other.code = image.code := (renamed.code.eq asked).symm
  have data : other.data = image.data := (renamed.data.eq asked).symm
  have listing : other.listingText = image.listingText := by
    rw [listingText, listingText, Image.listing, Image.listing, code, data]
  constructor
  · exact code
  · exact data
  · exact congrArg SourceMap.mk (renamed.entries.eq asked)
  · exact listing
  · rw [hash, hash, listing]
  · exact getElem?_eq asked renamed.nodeCode
  · exact getElem?_eq asked renamed.nodeData

/-- Where nodes keep their numbers, nothing but spans is different. -/
theorem sameButSpans (renamed : image.Renamed id located other) : image.SameButSpans other where
  code := renamed.code.items_eq.symm
  data := renamed.data.items_eq.symm
  sourceMap := renamed.entries.unlocated_eq
  listing := by
    rw [listing, listing, List.map_append, List.map_append, ← renamed.code.size_eq,
      code_listing renamed.code, data_listing renamed.data]
  nodeCode := getElem?_items_eq renamed.nodeCode
  nodeData := getElem?_items_eq renamed.nodeData

end Image.Renamed

/-- Neither the numbers of nodes nor their locations have an influence on the generated program.
Whatever the program, well formed or not, if its nodes get other numbers in its tree and in its
tables, then it compiles exactly if it did before. The code and the data are the same then, with
the same spans, and so are the source map, the listing and its hash, and the code and the data of a
node are found under its new number. If it does not compile, then the error is the same up to the
number of a node that lacks an attribute. If it gets other locations, then nothing but spans is
different. -/
theorem numbers_and_locations_irrelevant {renumber : NodeId → NodeId}
    (injective : Function.Injective renumber) (program : Program) :
    Alike (fun failure other => other = failure.rename renumber)
      (Image.SameButNumbers renumber) program.compile (program.rename renumber).compile ∧
    ∀ locations : Table Span,
      Alike (fun failure other => ∃ span, other = failure.respan span)
        Image.SameButSpans program.compile { program with locations }.compile := by
  constructor
  · have renamed := program.renamed_rename injective True
    exact (Program.alike_compile injective renamed).mono (fun _ _ same => same.2 trivial)
      fun _ _ same => same.sameButNumbers trivial
  · intro locations
    refine (Program.alike_compile Function.injective_id (program.renamed_locations locations)).mono
      ?_ fun _ _ same => same.sameButSpans
    rintro failure other ⟨⟨span, moved⟩, -⟩
    exact ⟨span, by rw [moved, failure.rename_id]⟩

/-- The sample compiles to the same image with other numbers and without locations. -/
theorem numbers_and_locations_irrelevant_sample :
    Function.Injective (fun id : Nat => 3 * id + 7) ∧
    (∃ image other, Program.sample.compile = .ok image ∧
      (Program.sample.rename fun id => 3 * id + 7).compile = .ok other ∧
      image.SameButNumbers (fun id => 3 * id + 7) other) ∧
    ∃ image other, Program.sample.compile = .ok image ∧
      Program.compile { Program.sample with locations := ∅ } = .ok other ∧
      image.SameButSpans other := by
  have injective : Function.Injective fun id : Nat => 3 * id + 7 := by
    intro id other same
    dsimp only at same
    omega
  have succeeds : Program.sample.compile.toOption.isSome = true := by decide +kernel
  obtain ⟨renumbered, relocated⟩ := numbers_and_locations_irrelevant injective .sample
  exact ⟨injective, renumbered.exists_ok succeeds, (relocated ∅).exists_ok succeeds⟩

end ScopeStack
