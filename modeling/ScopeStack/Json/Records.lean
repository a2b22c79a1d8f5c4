import ScopeStack.Json.Fields
import ScopeStack.Json.Parser
import ScopeStack.Json.Printer
import ScopeStack.Machine.Run
import ScopeStack.Report

/-!
# Records as JSON

The records that leave the library or are given to it, with the names of their
members. Each has a writer `toJson` and a reader `ofJson?`. An attribute that
is absent is left out when a record is written.
-/

namespace ScopeStack

namespace Span

/-- A span as JSON. -/
def toJson (span : Span) : Json :=
  .record
    [("line", .nat span.line), ("column", .nat span.column), ("end_line", .nat span.endLine),
      ("end_column", .nat span.endColumn)]

/-- Read a span. -/
def ofJson? (json : Json) : Option Span := do
  let fields ← Json.Fields.ofJson? ["line", "column", "end_line", "end_column"] json
  return {
    line := ← fields.required "line" Json.nat32?
    column := ← fields.required "column" Json.nat32?
    endLine := ← fields.required "end_line" Json.nat32?
    endColumn := ← fields.required "end_column" Json.nat32? }

end Span

namespace NodeId

/-- A node number as JSON. -/
def toJson (id : NodeId) : Json := .nat id

/-- Read a node number. -/
def ofJson? (json : Json) : Option NodeId := Json.nat32? json

end NodeId

namespace AtomKind

/-- The name of a kind of constants. -/
def name : AtomKind → String
  | .int => "Int"
  | .char => "Char"
  | .str => "Str"

/-- The kinds of constants by name. -/
def names : List (String × AtomKind) :=
  [AtomKind.int, .char, .str].map fun kind => (kind.name, kind)

/-- A kind of constants as JSON. -/
def toJson (kind : AtomKind) : Json := .string kind.name

/-- Read a kind of constants. -/
def ofJson? (json : Json) : Option AtomKind := Json.name? names json

end AtomKind

namespace UnaryOp

/-- The name of an operator. -/
def name : UnaryOp → String
  | .not => "Not"
  | .plus => "Add"
  | .minus => "Sub"
  | .addressOf => "AddrOf"
  | .valueAt => "ValueAt"

/-- The operators by name. -/
def names : List (String × UnaryOp) :=
  [UnaryOp.not, .plus, .minus, .addressOf, .valueAt].map fun op => (op.name, op)

/-- An operator as JSON. -/
def toJson (op : UnaryOp) : Json := .string op.name

/-- Read an operator. -/
def ofJson? (json : Json) : Option UnaryOp := Json.name? names json

end UnaryOp

namespace BinaryOp

/-- The name of an operator. -/
def name : BinaryOp → String
  | .or => "Or"
  | .and => "And"
  | .eq => "Eq"
  | .ne => "Neq"
  | .gt => "Gt"
  | .lt => "Lt"
  | .ge => "Ge"
  | .le => "Le"
  | .add => "Add"
  | .sub => "Sub"
  | .mul => "Mul"
  | .div => "Div"
  | .mod => "Mod"

/-- The operators by name. -/
def names : List (String × BinaryOp) :=
  [BinaryOp.or, .and, .eq, .ne, .gt, .lt, .ge, .le, .add, .sub, .mul, .div, .mod].map fun op =>
    (op.name, op)

/-- An operator as JSON. -/
def toJson (op : BinaryOp) : Json := .string op.name

/-- Read an operator. -/
def ofJson? (json : Json) : Option BinaryOp := Json.name? names json

end BinaryOp

namespace Stage

/-- The stages by name. -/
def names : List (String × Stage) :=
  [Stage.layout, .codegen, .load, .runtime, .internal].map fun stage => (stage.name, stage)

/-- A stage as JSON. -/
def toJson (stage : Stage) : Json := .string stage.name

/-- Read a stage. -/
def ofJson? (json : Json) : Option Stage := Json.name? names json

end Stage

namespace DiagnosticCode

/-- A code as JSON. -/
def toJson (code : DiagnosticCode) : Json := .nat code.number

/-- Read a code. -/
def ofJson? (json : Json) : Option DiagnosticCode := (Json.nat16? json).map fun number => ⟨number⟩

end DiagnosticCode

namespace Diagnostic

/-- A diagnostic as JSON. -/
def toJson (diagnostic : Diagnostic) : Json :=
  .record
    ([("code", diagnostic.code.toJson), ("category", diagnostic.stage.toJson),
        ("message", .string diagnostic.message)] ++
      Json.optional "span" Span.toJson diagnostic.span)

/-- Read a diagnostic. Its stage need not be that of its code. -/
def ofJson? (json : Json) : Option Diagnostic := do
  let fields ← Json.Fields.ofJson? ["code", "category", "message", "span"] json
  return {
    code := ← fields.required "code" DiagnosticCode.ofJson?
    stage := ← fields.required "category" Stage.ofJson?
    message := ← fields.required "message" Json.string?
    span := ← fields.optional "span" Span.ofJson? }

end Diagnostic

namespace RelAccess

/-- The names of the fields. -/
def fieldNames : List String := ["offset", "depth", "size", "inits", "name"]

/-- The members of a place in a frame. -/
def members (access : RelAccess) : List (String × Json) :=
  [("offset", .int access.offset), ("depth", .nat access.depth), ("size", .int access.size)] ++
    Json.optional "inits" (fun words => .array (words.map .int)) access.inits ++
    [("name", .string access.name)]

/-- A place in a frame as JSON. -/
def toJson (access : RelAccess) : Json := .record access.members

/-- Read a place in a frame from its fields. -/
def ofFields? (fields : Json.Fields) : Option RelAccess := do
  return {
    offset := ← fields.required "offset" Json.word?
    depth := ← fields.required "depth" Json.nat32?
    size := ← fields.required "size" Json.word?
    inits := ← fields.optional "inits" (Json.list? Json.word?)
    name := ← fields.required "name" Json.string? }

/-- Read a place in a frame. -/
def ofJson? (json : Json) : Option RelAccess :=
  (Json.Fields.ofJson? fieldNames json).bind ofFields?

end RelAccess

namespace AbsAccess

/-- The names of the fields. -/
def fieldNames : List String := ["label", "size", "inits"]

/-- The members of a global place. -/
def members (access : AbsAccess) : List (String × Json) :=
  [("label", .string access.label), ("size", .int access.size),
    ("inits", .array (access.inits.map .int))]

/-- A global place as JSON. -/
def toJson (access : AbsAccess) : Json := .record access.members

/-- Read a global place from its fields. -/
def ofFields? (fields : Json.Fields) : Option AbsAccess := do
  return {
    label := ← fields.required "label" Json.string?
    size := ← fields.required "size" Json.word?
    inits := ← fields.required "inits" (Json.list? Json.word?) }

/-- Read a global place. -/
def ofJson? (json : Json) : Option AbsAccess :=
  (Json.Fields.ofJson? fieldNames json).bind ofFields?

end AbsAccess

namespace Access

/-- A place as JSON; the member `kind` tells the two sorts apart. -/
def toJson : Access → Json
  | .abs access => .record (("kind", .string "abs") :: access.members)
  | .rel access => .record (("kind", .string "rel") :: access.members)

/-- The greatest depth of nesting in which a place can be read. -/
def maxDepth : Nat := 127

/-- Read a place of a given kind from the rest of its record. -/
def ofKind? (kind : String) (rest : Json) : Option Access :=
  match kind with
  | "abs" => (AbsAccess.ofJson? rest).map .abs
  | "rel" => (RelAccess.ofJson? rest).map .rel
  | _ => none

/-- Read a place. The kind is one of the members, or the first item. Nothing in
the record is skipped unread. -/
def ofJson? (json : Json) : Option Access := do
  if maxDepth < json.depth ∨ !json.isReadable then none
  match json with
  | .object members =>
    let (kinds, rest) := members.partition fun (name, _) => name == some "kind"
    match kinds with
    | [(_, .text (some kind))] => ofKind? kind (.object rest)
    | _ => none
  | .array (.text (some kind) :: rest) => ofKind? kind (.array rest)
  | _ => none

end Access

namespace Frame

/-- A frame as JSON. -/
def toJson (frame : Frame) : Json :=
  .record
    [("name", .string frame.name), ("depth", .nat frame.depth), ("pars_size", .int frame.parsSize),
      ("vars_size", .int frame.varsSize), ("pars", .array (frame.pars.map RelAccess.toJson)),
      ("vars", .array (frame.vars.map RelAccess.toJson))]

/-- Read a frame. -/
def ofJson? (json : Json) : Option Frame := do
  let fields ←
    Json.Fields.ofJson? ["name", "depth", "pars_size", "vars_size", "pars", "vars"] json
  return {
    name := ← fields.required "name" Json.string?
    depth := ← fields.required "depth" Json.nat32?
    parsSize := ← fields.required "pars_size" Json.word?
    varsSize := ← fields.required "vars_size" Json.word?
    pars := ← fields.required "pars" (Json.list? RelAccess.ofJson?)
    vars := ← fields.required "vars" (Json.list? RelAccess.ofJson?) }

end Frame

namespace FrameSummary

/-- The outline of a frame as JSON. -/
def toJson (summary : FrameSummary) : Json :=
  .record
    [("name", .string summary.name), ("depth", .nat summary.depth),
      ("pars_size", .int summary.parsSize), ("vars_size", .int summary.varsSize)]

/-- Read the outline of a frame. -/
def ofJson? (json : Json) : Option FrameSummary := do
  let fields ← Json.Fields.ofJson? ["name", "depth", "pars_size", "vars_size"] json
  return {
    name := ← fields.required "name" Json.string?
    depth := ← fields.required "depth" Json.nat32?
    parsSize := ← fields.required "pars_size" Json.word?
    varsSize := ← fields.required "vars_size" Json.word? }

end FrameSummary

namespace ListingLine

/-- A line of a listing as JSON. -/
def toJson (line : ListingLine) : Json :=
  .record
    ([("address", .int line.address), ("size", .int line.size), ("instr", .string line.instr)] ++
      Json.optional "span" Span.toJson line.span)

/-- Read a line of a listing. -/
def ofJson? (json : Json) : Option ListingLine := do
  let fields ← Json.Fields.ofJson? ["address", "size", "instr", "span"] json
  return {
    address := ← fields.required "address" Json.word?
    size := ← fields.required "size" Json.word?
    instr := ← fields.required "instr" Json.string?
    span := ← fields.optional "span" Span.ofJson? }

end ListingLine

namespace SourceMapEntry

/-- An entry of a source map as JSON. -/
def toJson (entry : SourceMapEntry) : Json :=
  .record
    ([("label", .string entry.label), ("address", .int entry.address), ("size", .int entry.size)] ++
      Json.optional "span" Span.toJson entry.span)

/-- Read an entry of a source map. -/
def ofJson? (json : Json) : Option SourceMapEntry := do
  let fields ← Json.Fields.ofJson? ["label", "address", "size", "span"] json
  return {
    label := ← fields.required "label" Json.string?
    address := ← fields.required "address" Json.word?
    size := ← fields.required "size" Json.word?
    span := ← fields.optional "span" Span.ofJson? }

end SourceMapEntry

namespace SourceMap

/-- A source map as JSON. -/
def toJson (sourceMap : SourceMap) : Json :=
  .record [("entries", .array (sourceMap.entries.map SourceMapEntry.toJson))]

/-- Read a source map. -/
def ofJson? (json : Json) : Option SourceMap := do
  let fields ← Json.Fields.ofJson? ["entries"] json
  return { entries := ← fields.required "entries" (Json.list? SourceMapEntry.ofJson?) }

end SourceMap

namespace Config

/-- A configuration as JSON. -/
def toJson (config : Config) : Json :=
  .record
    [("stack_top", .int config.stackTop),
      ("max_steps", (config.maxSteps.map Json.nat).getD .null)]

/-- Read a configuration. What is missing has its standard value. -/
def ofJson? (json : Json) : Option Config := do
  let fields ← Json.Fields.ofJson? ["stack_top", "max_steps"] json
  return {
    stackTop := ← fields.withDefault "stack_top" standard.stackTop Json.word?
    maxSteps :=
      ← fields.withDefault "max_steps" standard.maxSteps (Json.nullable? Json.nat64?) }

end Config

namespace Registers

/-- Registers as JSON. -/
def toJson (registers : Registers) : Json :=
  .record
    [("pc", .int registers.pc), ("fp", .int registers.fp), ("sp", .int registers.sp),
      ("hp", .int registers.hp)]

/-- Read registers. -/
def ofJson? (json : Json) : Option Registers := do
  let fields ← Json.Fields.ofJson? ["pc", "fp", "sp", "hp"] json
  return {
    pc := ← fields.required "pc" Json.word?
    fp := ← fields.required "fp" Json.word?
    sp := ← fields.required "sp" Json.word?
    hp := ← fields.required "hp" Json.word? }

end Registers

namespace Status

/-- A status as JSON. -/
def toJson : Status → Json
  | .running => .string "Running"
  | .halted exitCode => .record [("Halted", .record [("exit_code", .int exitCode)])]

/-- Read a status. -/
def ofJson? : Json → Option Status
  | .object [(some "Halted", value)] => do
    let fields ← Json.Fields.ofJson? ["exit_code"] value
    return .halted (← fields.required "exit_code" Json.word?)
  | json => Json.name? [("Running", .running)] json

end Status

namespace Report

/-- A report as JSON. -/
def toJson (report : Report) : Json :=
  .record
    ([("success", .bool report.success),
        ("frames", .array (report.frames.map FrameSummary.toJson)),
        ("code_size", .int report.codeSize),
        ("data_size", .int report.dataSize),
        ("listing", .array (report.listing.map ListingLine.toJson)),
        ("errors", .array (report.errors.map Diagnostic.toJson))] ++
      Json.optional "image_hash" Json.string report.imageHash)

/-- Read a report. Only `success` must be present. -/
def ofJson? (json : Json) : Option Report := do
  let fields ←
    Json.Fields.ofJson?
      ["success", "frames", "code_size", "data_size", "listing", "errors", "image_hash"] json
  return {
    success := ← fields.required "success" Json.bool?
    frames := ← fields.withDefault "frames" [] (Json.list? FrameSummary.ofJson?)
    codeSize := ← fields.withDefault "code_size" 0 Json.word?
    dataSize := ← fields.withDefault "data_size" 0 Json.word?
    listing := ← fields.withDefault "listing" [] (Json.list? ListingLine.ofJson?)
    errors := ← fields.withDefault "errors" [] (Json.list? Diagnostic.ofJson?)
    imageHash := ← fields.withDefault "image_hash" none (Json.nullable? Json.string?) }

end Report

end ScopeStack
