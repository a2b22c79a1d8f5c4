import ScopeStack.Proofs.Initializers
import ScopeStack.Proofs.Layout.Scopes

/-!
# The room of a frame

The local variables of a function lie directly below one another, each in the number of bytes that
has been measured for it, `Adds`. This is a whole number of words, so the room for all of them is
one too. That it is not negative is known only if the lengths in the initializers are words, see
`Layout.Stacked`.
-/

namespace ScopeStack

mutual

/-- The variables that a statement defines, without those of the functions inside it. -/
def Stmt.locals : Stmt → List VarDef
  | .expr _ _ => []
  | .assign _ _ _ => []
  | .cond _ _ yes no => localsOfStmts yes ++ localsOfStmts no
  | .loop _ _ body => localsOfStmts body
  | .block _ defs body => variablesIn defs ++ localsOfStmts body

/-- The variables that statements define. -/
def localsOfStmts : List Stmt → List VarDef
  | [] => []
  | stmt :: rest => stmt.locals ++ localsOfStmts rest

end

/-- Places lie directly below one another, from an offset down to another one. -/
def TilesDown : Int → List RelAccess → Int → Prop
  | top, [], bottom => bottom = top
  | top, access :: rest, bottom =>
    access.offset + access.size = top ∧ TilesDown access.offset rest bottom

/-- Places below places that lie below one another. -/
theorem TilesDown.append {top middle bottom : Int} {places more : List RelAccess}
    (upper : TilesDown top places middle) (lower : TilesDown middle more bottom) :
    TilesDown top (places ++ more) bottom := by
  induction places generalizing top with
  | nil =>
    obtain rfl : middle = top := upper
    exact lower
  | cons access rest hypothesis => exact ⟨upper.1, hypothesis upper.2⟩

namespace Layout

variable {layout : Layout}

/-- A variable has a place in a frame, with the flat form and the size that have been measured. -/
def Places (layout : Layout) (declared : VarDef) (access : RelAccess) : Prop :=
  layout.accesses[declared.id]? = some (.rel access) ∧
    ∃ flat, measure declared = .ok (flat, access.size) ∧ access.inits = some flat

/-- Variables are added to a frame in their order, each directly below those before it. -/
def Adds (layout : Layout) (declared : List VarDef) (before after : Locals) : Prop :=
  ∃ added, after.vars = before.vars ++ added ∧ List.Forall₂ layout.Places declared added ∧
    TilesDown before.bottom added after.bottom

namespace Adds

variable {first second : List VarDef} {before middle after : Locals}

/-- Adding no variables leaves a frame as it is. -/
theorem nil (locals : Locals) : layout.Adds [] locals locals :=
  ⟨[], (List.append_nil _).symm, .nil, rfl⟩

/-- Variables are added one after another. -/
theorem append (upper : layout.Adds first before middle) (lower : layout.Adds second middle after) :
    layout.Adds (first ++ second) before after := by
  obtain ⟨added, grown, placed, tiles⟩ := upper
  obtain ⟨more, grownMore, placedMore, tilesMore⟩ := lower
  rw [grown, List.append_assoc] at grownMore
  exact ⟨added ++ more, grownMore, List.rel_append placed placedMore, tiles.append tilesMore⟩

/-- The variables take whole words. -/
theorem words {declared : List VarDef} (adds : layout.Adds declared before after) :
    ∃ words : Int, after.bottom = before.bottom - 4 * words := by
  obtain ⟨added, -, placed, tiles⟩ := adds
  generalize before.bottom = top at tiles ⊢
  induction placed generalizing top with
  | nil => exact ⟨0, by rw [show after.bottom = top from tiles]; omega⟩
  | cons own _ hypothesis =>
    obtain ⟨place, later⟩ := tiles
    obtain ⟨-, flat, measured, -⟩ := own
    obtain ⟨-, words, size⟩ := Initializer.fits_of_byteSize (measure_eq_ok.mp measured).2
    obtain ⟨more, lower⟩ := hypothesis _ later
    exact ⟨words + more, by omega⟩

end Adds

/-- A local variable is added to those before it. -/
theorem LocalLaid.adds {depth : Nat} {declared : VarDef} {before after : Locals}
    (laid : LocalLaid layout depth declared before after) : layout.Adds [declared] before after := by
  obtain ⟨flat, size, measured, lower, access, rfl, grown, found⟩ := laid
  exact ⟨_, grown, .cons ⟨found, flat, measured, rfl⟩ .nil, by dsimp only; omega, rfl⟩

/-- The variables of a block are added to those before them. -/
theorem DefsLaid.adds {label : String} {depth : Nat} {defs : List Def} {before after : Extent}
    (laid : DefsLaid layout label depth defs before after) :
    layout.Adds (variablesIn defs) before.locals after.locals := by
  induction defs generalizing before with
  | nil =>
    rw [show after = before from laid]
    exact .nil _
  | cons definition rest hypothesis =>
    cases definition with
    | fn function =>
      obtain ⟨labels, -, remaining⟩ := laid
      have adds := hypothesis remaining
      exact adds
    | var declared =>
      obtain ⟨locals, placed, remaining⟩ := laid
      exact placed.adds.append (hypothesis remaining)

mutual

/-- The variables of a statement are added to those before them. -/
theorem StmtLaid.adds {label : String} {depth : Nat} {before after : Extent} : (stmt : Stmt) →
    StmtLaid layout label depth stmt before after →
    layout.Adds stmt.locals before.locals after.locals
  | .expr _ _, laid => by rw [show after = before from laid]; exact .nil _
  | .assign _ _ _, laid => by rw [show after = before from laid]; exact .nil _
  | .cond _ _ yes no, ⟨_, laidYes, laidNo⟩ =>
    (StmtsLaid.adds yes laidYes).append (StmtsLaid.adds no laidNo)
  | .loop _ _ body, laid => StmtsLaid.adds body laid
  | .block _ _ body, ⟨_, laidDefs, laidBody⟩ =>
    laidDefs.adds.append (StmtsLaid.adds body laidBody)

/-- The variables of statements are added to those before them. -/
theorem StmtsLaid.adds {label : String} {depth : Nat} {before after : Extent} :
    (stmts : List Stmt) → StmtsLaid layout label depth stmts before after →
    layout.Adds (localsOfStmts stmts) before.locals after.locals
  | [], laid => by rw [show after = before from laid]; exact .nil _
  | stmt :: rest, ⟨_, laidStmt, laidRest⟩ =>
    (StmtLaid.adds stmt laidStmt).append (StmtsLaid.adds rest laidRest)

end

/-- A variable of a block has its place. -/
theorem DefsLaid.entry {layout : Layout} {label : String} {depth : Nat} {defs : List Def}
    {before after : Extent} {declared : VarDef}
    (laid : DefsLaid layout label depth defs before after) (inside : declared ∈ variablesIn defs) :
    ∃ flat size access, measure declared = .ok (flat, size) ∧
      layout.accesses[declared.id]? = some (.rel access) ∧ access.depth = depth ∧
      access.size = size ∧ access.inits = some flat := by
  induction defs generalizing before with
  | nil => cases inside
  | cons definition rest hypothesis =>
    cases definition with
    | fn function =>
      obtain ⟨labels, -, remaining⟩ := laid
      obtain ⟨flat, size, access, found⟩ := hypothesis remaining inside
      exact ⟨flat, size, access, found⟩
    | var own =>
      obtain ⟨locals, placed, remaining⟩ := laid
      rcases List.mem_cons.mp inside with rfl | later
      · obtain ⟨flat, size, measured, -, access, rfl, -, found⟩ := placed
        exact ⟨flat, size, _, measured, found, rfl, rfl, rfl⟩
      · exact hypothesis remaining later

/-- What the layout of a function says of its frame, and of the statements in its
body. -/
theorem FunctionLaid.body {layout : Layout} {outer : Option String} {depth : Nat}
    {function : FunDef} {before after : LabelSet}
    (laid : FunctionLaid layout outer depth function before after) :
    ParamsLaid layout (depth + 1) function.params ∧
      (layout.frameOf function.id).parsSize = 4 * function.params.length + 4 ∧
      ∃ label first last, StmtsLaid layout label (depth + 1) function.body first last ∧
        first.locals.bottom = -Frame.headerSize ∧
        last.locals.bottom = -(layout.frameOf function.id).varsSize := by
  obtain ⟨id, name, params, body⟩ := function
  obtain ⟨laidParams, label, labels, locals, -, laidBody, framed⟩ := laid
  rw [frameOf_eq framed]
  exact ⟨laidParams, rfl, label, _, _, laidBody, rfl, (Int.neg_neg _).symm⟩

/-- The frame of a function has room for whole words of variables. -/
theorem FunctionLaid.words {layout : Layout} {outer : Option String} {depth : Nat}
    {function : FunDef} {before after : LabelSet}
    (laid : FunctionLaid layout outer depth function before after) :
    ∃ words : Int, (layout.frameOf function.id).localsSize = 4 * words := by
  obtain ⟨-, -, label, first, last, laidBody, top, bottom⟩ := laid.body
  obtain ⟨words, lower⟩ := (StmtsLaid.adds function.body laidBody).words
  exact ⟨words, by rw [Frame.localsSize]; omega⟩

end Layout

end ScopeStack
