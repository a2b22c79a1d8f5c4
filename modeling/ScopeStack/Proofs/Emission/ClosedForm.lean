import ScopeStack.Image.Assembly
import ScopeStack.Proofs.Layout.Placement
import ScopeStack.Proofs.Scope

/-!
# The code of a program in closed form

Emission threads a state through a program: it takes numbers for branches and
constants as it goes along and enters code and data into tables. Here the same
code is a function of the tree. `Naming` gives the numbers of the branching
statements and of the constants; the instructions of an expression, a statement
or a function are then lists put together from those of its parts, and the
functions and data blocks of a tree are lists in the order of the image.

Where a table has no entry for a number, these functions fall back on some
value. Emission fails there, so the fallback is never seen.
-/

namespace ScopeStack

/-- The number that a constant stands for. -/
def Atom.number (atom : Atom) : Int :=
  match atom.kind with
  | .int => (Literal.readInt atom.lexeme).toOption.getD 0
  | .char => (Literal.readChar atom.lexeme).toOption.getD 0
  | .str => 0

/-- The codes of the characters of a text. -/
def Atom.codes (atom : Atom) : List Int := (Literal.readText atom.lexeme).toOption.getD []

namespace Emission

/-- The numbers by which labels are told apart. -/
structure Naming where
  /-- The number of the data block of a constant or an initializer. -/
  constant : NodeId → Nat
  /-- The number of a branching statement. -/
  branch : NodeId → Nat

/-- The label of a data block. -/
def Naming.constantLabel (naming : Naming) (id : NodeId) : String :=
  ":" ++ toString (naming.constant id)

namespace Context

/-- The place of the variable that a use refers to. -/
def accessOf? (context : Context) (id : NodeId) : Option Access :=
  (context.program.definition? id).bind (context.layout.accesses[·]?)

/-- The frame of the function that a call refers to. -/
def calleeOf? (context : Context) (id : NodeId) : Option Frame :=
  (context.program.definition? id).bind (context.layout.frames[·]?)

/-- The number of frames around the current node that are deeper than a
definition. -/
def distance (context : Context) (depth : Nat) : Nat :=
  context.frames.findIdx fun frame => frame.depth ≤ depth

/-- The number of access links from the current frame to the one that a called
function is linked to. -/
def linkDistance (context : Context) (callee : Frame) : Nat :=
  if callee.depth ≤ 1 then 0 else context.distance (callee.depth - 1)

end Context

/-- The code of a constant. -/
def atomInstrs (naming : Naming) (id : NodeId) (atom : Atom) : List Instr :=
  match atom.kind with
  | .str => [.name (naming.constantLabel id)]
  | _ => [.push atom.number]

/-- The code for the address of a variable. -/
def variableInstrs (context : Context) (id : NodeId) : List Instr :=
  match context.accessOf? id with
  | none => []
  | some (.abs access) => [.name access.label]
  | some (.rel access) =>
    framePointer (context.distance access.depth) ++ [.push access.offset, .binary .add]

/-- The code that calls a function after its arguments have been pushed. -/
def callInstrs (context : Context) (callee : Frame) : List Instr :=
  framePointer (context.linkDistance callee) ++ [.name callee.name, .call (some callee.name)]

/-- The code of a call after its arguments. -/
def calleeInstrs (context : Context) (id : NodeId) : List Instr :=
  match context.calleeOf? id with
  | none => []
  | some callee => callInstrs context callee

mutual

/-- The code for the value of an expression. -/
def valueInstrs (context : Context) (naming : Naming) : Expr → List Instr
  | .atom id atom => atomInstrs naming id atom
  | .var id _ => variableInstrs context id ++ [.load]
  | .call id _ args => argInstrs context naming args ++ calleeInstrs context id
  | .unary _ .plus operand => valueInstrs context naming operand
  | .unary _ .not operand => valueInstrs context naming operand ++ [.unary .not]
  | .unary _ .minus operand => valueInstrs context naming operand ++ [.unary .neg]
  | .unary _ .valueAt operand => valueInstrs context naming operand ++ [.load]
  | .unary _ .addressOf operand => variableInstrs context operand.id
  | .binary _ op first second =>
    valueInstrs context naming first ++ valueInstrs context naming second ++ [.binary op]

/-- The code that pushes arguments, the last one first. -/
def argInstrs (context : Context) (naming : Naming) : List Expr → List Instr
  | [] => []
  | arg :: rest => argInstrs context naming rest ++ valueInstrs context naming arg

end

/-- The code for the address of a place. -/
def placeInstrs (context : Context) (naming : Naming) : Expr → List Instr
  | .unary _ .valueAt pointer => valueInstrs context naming pointer
  | place => variableInstrs context place.id

/-- The code that gives a local variable its initial words. -/
def localInstrs (context : Context) (naming : Naming) (declared : VarDef) : List Instr :=
  match context.layout.accesses[declared.id]? with
  | some (.rel access) =>
    [.regn .fp, .push access.offset, .binary .add, .name (naming.constantLabel declared.id), .init]
  | _ => []

/-- The code that gives the variables among definitions their initial
words. -/
def localsInstrs (context : Context) (naming : Naming) : List Def → List Instr
  | [] => []
  | .fn _ :: rest => localsInstrs context naming rest
  | .var declared :: rest =>
    localInstrs context naming declared ++ localsInstrs context naming rest

mutual

/-- The code of a statement. -/
def stmtInstrs (context : Context) (naming : Naming) (tail : Bool) : Stmt → List Instr
  | .expr _ value =>
    valueInstrs context naming value ++ if tail then [] else [.push 4, .popn]
  | .assign _ target source =>
    valueInstrs context naming source ++ placeInstrs context naming target ++ [.save]
  | .cond id test yes no =>
    let number := naming.branch id
    valueInstrs context naming test ++
      [.name (branchLabel "else" number), .name (branchLabel "then" number), .cjmp,
        .label (branchLabel "then" number)] ++
      stmtsInstrs context naming false yes ++
      [.name (branchLabel "end" number), .ujmp, .label (branchLabel "else" number)] ++
      stmtsInstrs context naming false no ++ [.label (branchLabel "end" number)]
  | .loop id test body =>
    let number := naming.branch id
    [.label (branchLabel "while" number)] ++ valueInstrs context naming test ++
      [.name (branchLabel "end" number), .name (branchLabel "do" number), .cjmp,
        .label (branchLabel "do" number)] ++
      stmtsInstrs context naming false body ++
      [.name (branchLabel "while" number), .ujmp, .label (branchLabel "end" number)]
  | .block _ defs body =>
    localsInstrs context naming defs ++ stmtsInstrs context naming tail body

/-- The code of statements. -/
def stmtsInstrs (context : Context) (naming : Naming) (tail : Bool) : List Stmt → List Instr
  | [] => []
  | stmt :: rest =>
    stmtInstrs context naming (tail && rest.isEmpty) stmt ++ stmtsInstrs context naming tail rest

end

/-- The code of a function with a body. -/
def functionInstrs (context : Context) (naming : Naming) (frame : Frame) (body : List Stmt) :
    List Instr :=
  [.label frame.name, .push (-frame.localsSize), .popn] ++
    stmtsInstrs (context.enter frame) naming true body ++
    (if leavesValue body then [] else [.push 0]) ++
    [.push (frame.parsSize - 4), .retn (some frame.name)]

/-- The code of a function of an image. -/
structure CodeBlock where
  id : NodeId
  instrs : List Instr

mutual

/-- The code of the functions inside a statement. -/
def stmtBlocks (context : Context) (naming : Naming) : Stmt → List CodeBlock
  | .expr _ _ => []
  | .assign _ _ _ => []
  | .cond _ _ yes no => stmtsBlocks context naming yes ++ stmtsBlocks context naming no
  | .loop _ _ body => stmtsBlocks context naming body
  | .block _ defs body => stmtsBlocks context naming body ++ defsBlocks context naming defs

/-- The code of the functions inside statements. -/
def stmtsBlocks (context : Context) (naming : Naming) : List Stmt → List CodeBlock
  | [] => []
  | stmt :: rest => stmtBlocks context naming stmt ++ stmtsBlocks context naming rest

/-- The code of the functions among definitions, each followed by those inside
it. -/
def defsBlocks (context : Context) (naming : Naming) : List Def → List CodeBlock
  | [] => []
  | .fn function :: rest =>
    functionBlocks context naming function ++ defsBlocks context naming rest
  | .var _ :: rest => defsBlocks context naming rest

/-- The code of a function, followed by that of the functions inside it. A
function without a body has no code. -/
def functionBlocks (context : Context) (naming : Naming) : FunDef → List CodeBlock
  | ⟨id, _, _, body⟩ =>
    let frame := context.layout.frameOf id
    ⟨id, if body.isEmpty then [] else functionInstrs context naming frame body⟩ ::
      stmtsBlocks (context.enter frame) naming body

end

/-- The data of a node: the room of a global variable with its label and its
size, and the words of a text or an initializer. -/
structure DataBlock where
  id : NodeId
  room : Option (String × Int)
  words : List Int

/-- The items of a data block. -/
def DataBlock.items (naming : Naming) (own : DataBlock) : List Datum :=
  (match own.room with
    | some (label, size) => [.label label, .size size]
    | none => []) ++ block (naming.constantLabel own.id) own.words

mutual

/-- The data of an expression. -/
def valueData : Expr → List DataBlock
  | .atom id atom => if atom.kind = .str then [⟨id, none, atom.codes ++ [0]⟩] else []
  | .var _ _ => []
  | .call _ _ args => argData args
  | .unary _ .addressOf _ => []
  | .unary _ _ operand => valueData operand
  | .binary _ _ first second => valueData first ++ valueData second

/-- The data of arguments, the last one first. -/
def argData : List Expr → List DataBlock
  | [] => []
  | arg :: rest => argData rest ++ valueData arg

end

/-- The data of a place. -/
def placeData : Expr → List DataBlock
  | .unary _ .valueAt pointer => valueData pointer
  | _ => []

/-- The data of the variables among definitions. -/
def localsData (layout : Layout) : List Def → List DataBlock
  | [] => []
  | .fn _ :: rest => localsData layout rest
  | .var declared :: rest =>
    ⟨declared.id, none, ((layout.accesses[declared.id]?).bind Access.inits?).getD []⟩ ::
      localsData layout rest

mutual

/-- The data of a statement and of the functions inside it. -/
def stmtData (layout : Layout) : Stmt → List DataBlock
  | .expr _ value => valueData value
  | .assign _ target source => valueData source ++ placeData target
  | .cond _ test yes no => valueData test ++ stmtsData layout yes ++ stmtsData layout no
  | .loop _ test body => valueData test ++ stmtsData layout body
  | .block _ defs body => localsData layout defs ++ stmtsData layout body ++ defsData layout defs

/-- The data of statements and of the functions inside them. -/
def stmtsData (layout : Layout) : List Stmt → List DataBlock
  | [] => []
  | stmt :: rest => stmtData layout stmt ++ stmtsData layout rest

/-- The data of the functions among definitions. -/
def defsData (layout : Layout) : List Def → List DataBlock
  | [] => []
  | .fn function :: rest => functionData layout function ++ defsData layout rest
  | .var _ :: rest => defsData layout rest

/-- The data of a function. -/
def functionData (layout : Layout) : FunDef → List DataBlock
  | ⟨_, _, _, body⟩ => stmtsData layout body

end

mutual

/-- The branching statements inside a statement, in the order of their
numbers. -/
def stmtBranches : Stmt → List NodeId
  | .expr _ _ => []
  | .assign _ _ _ => []
  | .cond id _ yes no => id :: (stmtsBranches yes ++ stmtsBranches no)
  | .loop id _ body => id :: stmtsBranches body
  | .block _ defs body => stmtsBranches body ++ defsBranches defs

/-- The branching statements inside statements. -/
def stmtsBranches : List Stmt → List NodeId
  | [] => []
  | stmt :: rest => stmtBranches stmt ++ stmtsBranches rest

/-- The branching statements in the functions among definitions. -/
def defsBranches : List Def → List NodeId
  | [] => []
  | .fn function :: rest => functionBranches function ++ defsBranches rest
  | .var _ :: rest => defsBranches rest

/-- The branching statements in a function. -/
def functionBranches : FunDef → List NodeId
  | ⟨_, _, _, body⟩ => stmtsBranches body

end

/-- The data of a global variable. -/
def globalData (layout : Layout) (declared : VarDef) : DataBlock :=
  match layout.accesses[declared.id]? with
  | some (.abs access) => ⟨declared.id, some (access.label, access.size), access.inits⟩
  | _ => ⟨declared.id, none, []⟩

/-- The data of a program. -/
def topData (layout : Layout) : List Def → List DataBlock
  | [] => []
  | .fn function :: rest => functionData layout function ++ topData layout rest
  | .var declared :: rest => globalData layout declared :: topData layout rest

/-- The code that initializes a global variable. -/
def globalInstrs (layout : Layout) (naming : Naming) (declared : VarDef) : List Instr :=
  match layout.accesses[declared.id]? with
  | some (.abs access) => [.name access.label, .name (naming.constantLabel declared.id), .init]
  | _ => []

/-- The code of the global variables and functions of a program. -/
def topBlocks (context : Context) (naming : Naming) : List Def → List CodeBlock
  | [] => []
  | .fn function :: rest => functionBlocks context naming function ++ topBlocks context naming rest
  | .var declared :: rest =>
    ⟨declared.id, globalInstrs context.layout naming declared⟩ :: topBlocks context naming rest

/-- The code at address zero: initialize the global variables, call the entry
point and exit with code zero. -/
def startInstrs (context : Context) (naming : Naming) (main : FunDef) : List Instr :=
  (variablesIn context.program.defs).flatMap (globalInstrs context.layout naming) ++
    [.push 0, .name (context.layout.frameOf main.id).name, .call (some (context.layout.frameOf main.id).name),
      .push 0, .push 0, .name Service.exit.name, .call none]

/-- The numbers that emission gives out in a program. -/
def Naming.ofProgram (program : Program) (layout : Layout) : Naming where
  constant id := ((topData layout program.defs).map DataBlock.id).idxOf id
  branch id := (defsBranches program.defs).idxOf id

end Emission

end ScopeStack
