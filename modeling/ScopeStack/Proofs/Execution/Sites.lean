import ScopeStack.Proofs.Execution.Staging
import ScopeStack.Proofs.Machine.Initialize
import ScopeStack.Proofs.Machine.Services

/-!
# A running function

A `Site` is the place where a function runs: its frame and those of the functions
around it, the code of its body, and the bytes that it does not write to. These
are all bytes but those of the variables within its reach. Its stack grows downward
from the end of its frame, and words that it pushes are safe until it takes them
back, since whatever runs in between leaves them alone.

`Site.Here` says that the machine is in the middle of the body, with a given stack
pointer and memory. The rules of the machine are repeated for such states; they
supply what is watched before every step.
-/

namespace ScopeStack

open Emission

/-- The byte belongs to a local variable or a parameter in a frame. -/
def Frame.Owns (frame : Frame) (base address : Int) : Prop :=
  (base - frame.varsSize ≤ address ∧ address < base - headerSize) ∨
    (base + 4 ≤ address ∧ address < base + frame.parsSize)

/-- Each frame has an access link to the next one. -/
def Memory.Chained (memory : Memory) (bases : List Int) : Prop :=
  ∀ (index : Nat) (base outer : Int), bases[index]? = some base → bases[index + 1]? = some outer →
    memory.word base = Word.ofInt outer

/-- The place where a function runs. -/
structure Site where
  /-- The running function and those around it, with the bases of their frames. -/
  chain : List (FunDef × Int)
  fp : Int
  /-- The end of the frame. -/
  bottom : Int
  /-- Where the code of the body starts. -/
  start : Int
  stop : Int
  live : List Activation
  /-- The bytes that do not belong to variables within reach. -/
  kept : Int → Prop
  /-- Memory as it was when the body was entered. -/
  origin : Memory

/-- A frame stands in memory above an address: its header is kept, its variables
are not. -/
structure Frame.Stands (frame : Frame) (kept : Int → Prop) (bottom size base : Int) : Prop where
  header : Frame.headerSize ≤ frame.varsSize
  link : 4 ≤ frame.parsSize
  above : bottom ≤ base - frame.varsSize
  inside : base + frame.parsSize ≤ size
  keeps : ∀ address, base - Frame.headerSize ≤ address → address < base + 4 → kept address
  owns : ∀ address, frame.Owns base address → ¬kept address

namespace Site

section Definitions

variable (executable : Executable)

/-- The byte is kept, and it is not in the free part of the stack. -/
def Safe (site : Site) (sp address : Int) : Prop :=
  site.kept address ∧ (sp ≤ address ∨ address < executable.dataEnd)

/-- Memory in which safe bytes are what they were. -/
abbrev Stable (site : Site) (sp : Int) (before after : Memory) : Prop :=
  Memory.Intact (site.Safe executable sp) before after

/-- Memory in which at most the free part of the stack has changed. -/
abbrev Quiet (sp : Int) (before after : Memory) : Prop :=
  Memory.Outside executable.dataEnd sp before after

/-- The machine is in the body of the function that runs at a site. -/
structure Here (site : Site) (sp : Int) (memory : Memory) (ambient : Ambient) : Prop where
  stable : site.Stable executable site.bottom site.origin memory
  stacked : Stacked sp memory ambient
  below : sp ≤ site.bottom
  data : executable.dataEnd ≤ ambient.hp

/-- The frames of a site stand in memory, apart from each other and from the data of
the program. -/
structure Grounded (program : Program) (layout : Layout) (link : Linkage) (site : Site) : Prop where
  size : site.origin.size = executable.memory.size
  codeSize : site.origin.codeSize = executable.memory.codeSize
  inside : site.bottom ≤ executable.memory.size
  data : executable.dataEnd ≤ site.bottom
  pointer : 0 ≤ site.fp ∧ site.fp ≤ executable.memory.size
  code : 0 ≤ site.start ∧ site.stop ≤ executable.memory.codeSize
  frames : ∀ own ∈ site.chain,
    (layout.frameOf own.1.id).Stands site.kept site.bottom executable.memory.size own.2
  innermost : ∀ own ∈ site.chain.head?, own.2 = site.fp
  chained : site.origin.Chained (site.chain.map Prod.snd)
  free : ∀ address, executable.dataEnd ≤ address → address < site.bottom → site.kept address
  words : ∀ own ∈ topData layout program.defs, site.origin.WordsAt (link.words own.id) own.words ∧
    ∀ address, link.words own.id ≤ address → address < link.words own.id + 4 * own.words.length →
      site.kept address
  rooms : ∀ declared ∈ variablesIn program.defs, ∀ access : AbsAccess,
    layout.accesses[declared.id]? = some (.abs access) →
    ∀ address, link.room declared.id ≤ address → address < link.room declared.id + access.size →
      ¬site.kept address

/-- What is watched holds wherever the machine is in the body. -/
structure Sound (program : Program) (layout : Layout) (link : Linkage) (watch : Watch executable)
    (site : Site) : Prop extends Grounded executable program layout link site where
  good : ∀ pc memory, site.start ≤ pc → pc < site.stop →
    site.Stable executable site.bottom site.origin memory →
    watch.good pc site.fp memory site.live

end Definitions

variable {executable : Executable} {site : Site} {sp : Int} {memory after : Memory}
  {ambient : Ambient}

/-- What changes in the free part of the stack alone leaves safe bytes alone. -/
theorem stable_of_quiet (quiet : Quiet executable sp memory after) :
    site.Stable executable sp memory after :=
  quiet.mono fun _ safe => safe.2.symm

/-- Fewer bytes are safe for a higher stack pointer. -/
theorem Stable.mono {higher : Int} (stable : site.Stable executable sp memory after)
    (le : sp ≤ higher) : site.Stable executable higher memory after :=
  Memory.Intact.mono stable fun _ safe => ⟨safe.1, safe.2.imp_left (Int.le_trans le)⟩

/-- What changes below a stack pointer changes below a higher one. -/
theorem Quiet.mono {higher : Int} (quiet : Quiet executable sp memory after) (le : sp ≤ higher) :
    Quiet executable higher memory after :=
  Memory.Intact.mono quiet fun _ outside => outside.imp_right (Int.le_trans le)

/-- A change of a word that is not kept leaves safe bytes alone. -/
theorem stable_of_put {address : Int} {value : Word} (put : Memory.Put memory address value after)
    (apart : ∀ index, address ≤ index → index < address + 4 → ¬site.kept index) :
    site.Stable executable sp memory after :=
  put.intact fun index safe => by
    rcases Int.lt_or_le index address with low | high
    · exact .inl low
    · exact .inr (Int.not_lt.mp fun short => apart index high short safe.1)

namespace Here

/-- Memory has the size that it had when the body was entered. -/
theorem size (here : site.Here executable sp memory ambient) : memory.size = site.origin.size :=
  here.stable.size

/-- The machine is still in the body when safe bytes are what they were. -/
theorem moved (here : site.Here executable sp memory ambient) {other : Int} {later : Ambient}
    (stable : site.Stable executable site.bottom memory after) (stacked : Stacked other after later)
    (below : other ≤ site.bottom) (data : executable.dataEnd ≤ later.hp) :
    site.Here executable other after later :=
  ⟨here.stable.trans stable, stacked, below, data⟩

/-- Pushing a word. -/
theorem pushed (here : site.Here executable sp memory ambient) {value : Word}
    (put : Memory.Put memory (sp - 4) value after) (stacked : Stacked (sp - 4) after ambient) :
    site.Here executable (sp - 4) after ambient ∧ Quiet executable sp memory after := by
  have below := here.below
  have data := here.data
  have heap := stacked.heap
  have quiet : Quiet executable sp memory after := put.intact fun index outside => by omega
  exact ⟨here.moved (stable_of_quiet (quiet.mono below)) stacked (by omega) data, quiet⟩

/-- Replacing a word of the stack. -/
theorem replaced (here : site.Here executable sp memory ambient) {value : Word} {other : Int}
    (room : other + 4 ≤ site.bottom)
    (put : Memory.Put memory other value after) (stacked : Stacked other after ambient) :
    site.Here executable other after ambient ∧ Quiet executable (other + 4) memory after := by
  have data := here.data
  have heap := stacked.heap
  have quiet : Quiet executable (other + 4) memory after := put.intact fun index outside => by omega
  exact ⟨here.moved (stable_of_quiet (quiet.mono room)) stacked (by omega) data, quiet⟩

/-- Giving up words of the stack. -/
theorem popped (here : site.Here executable sp memory ambient) {other : Int} (le : sp ≤ other)
    (room : other ≤ site.bottom) (inside : site.bottom ≤ memory.size) :
    site.Here executable other memory ambient :=
  ⟨here.stable, here.stacked.popped le (Int.le_trans room inside), room, here.data⟩

end Here

section Geometry

variable {program : Program} {layout : Layout} {rule : Rule} {link : Linkage}
  (installed : Installed program layout rule executable link)

include installed

/-- An address in the code of a site. -/
theorem toInt_ofInt_of_code (grounded : site.Grounded executable program layout link) {target : Int}
    (low : site.start ≤ target) (high : target ≤ site.stop) :
    (Word.ofInt target).toInt = target := by
  have code := grounded.code
  have codeSize := installed.arranged.codeSize_le
  have data := installed.arranged.dataEnd_le
  have size := installed.arranged.size
  exact installed.arranged.toInt_ofInt (by omega) (by omega)

/-- The stack lies above the data. -/
theorem zero_le_bottom (grounded : site.Grounded executable program layout link) :
    0 ≤ executable.dataEnd ∧ executable.dataEnd ≤ site.bottom :=
  ⟨Int.le_trans installed.arranged.codeSize_nonneg installed.arranged.codeSize_le, grounded.data⟩

end Geometry

section Rules

variable {program : Program} {layout : Layout} {rule : Rule} {link : Linkage}
  {watch : Watch executable} {count : Nat} {pc : Int}
  (installed : Installed program layout rule executable link)
  (slots : link.slots = executable.slots)
  (sound : site.Sound executable program layout link watch)
  (here : site.Here executable sp memory ambient)
  (within : site.start ≤ pc ∧ pc < site.stop)

include sound here in
/-- The end of the frame lies in memory. -/
theorem bottom_le_size : site.bottom ≤ memory.size := by
  rw [here.size, sound.size]
  exact sound.inside

include sound here within in
/-- What is watched holds in the middle of the body. -/
theorem good_here : watch.good pc site.fp memory site.live :=
  sound.good pc memory within.1 within.2 here.stable

include slots sound here within in
/-- Pushing a word. -/
theorem at_push {value : Word} (fetch : link.slots[pc]? = some (.push value))
    (next : ∀ after, Quiet executable sp memory after → after.word (sp - 4) = value →
      site.Here executable (sp - 4) after ambient →
      watch.At count site.live (pc + 5) site.fp (sp - 4) after ambient) :
    watch.At count site.live pc site.fp sp memory ambient := by
  rw [slots] at fetch
  refine Watch.at_push here.stacked (good_here sound here within) fetch fun after put stacked => ?_
  obtain ⟨moved, quiet⟩ := here.pushed put stacked
  exact (next after quiet put.word moved).mono (Nat.sub_le _ _)

include installed sound here within

/-- Pushing the frame pointer. -/
theorem at_regn (fetch : link.slots[pc]? = some (.regn .fp))
    (next : ∀ after, Quiet executable sp memory after → after.word (sp - 4) = Word.ofInt site.fp →
      site.Here executable (sp - 4) after ambient →
      watch.At count site.live (pc + 1) site.fp (sp - 4) after ambient) :
    watch.At count site.live pc site.fp sp memory ambient := by
  rw [installed.slots] at fetch
  refine Watch.at_regn here.stacked (good_here sound here within) fetch fun after put stacked => ?_
  obtain ⟨moved, quiet⟩ := here.pushed put stacked
  exact (next after quiet put.word moved).mono (Nat.sub_le _ _)

/-- Replacing the address on top of the stack by the word at it. -/
theorem at_load (fetch : link.slots[pc]? = some .load) (room : sp + 4 ≤ site.bottom)
    (next : memory.Addressable (memory.word sp).toInt 4 → ∀ after,
      Quiet executable (sp + 4) memory after →
      after.word sp = memory.word (memory.word sp).toInt → site.Here executable sp after ambient →
      watch.At count site.live (pc + 1) site.fp sp after ambient)
    (outside : ¬memory.Addressable (memory.word sp).toInt 4 → ∀ state : State,
      state.input = ambient.input → state.output = ambient.output →
      watch.ends (.faulted (.memoryFault (memory.word sp).toInt)) state) :
    watch.At count site.live pc site.fp sp memory ambient := by
  rw [installed.slots] at fetch
  refine Watch.at_load here.stacked (good_here sound here within) fetch
    (Int.le_trans room (bottom_le_size sound here)) (fun readable after put stacked => ?_) outside
  obtain ⟨moved, quiet⟩ := here.replaced room put stacked
  exact (next readable after quiet put.word moved).mono (Nat.sub_le _ _)

/-- Replacing the word on top of the stack by the value of an operator. -/
theorem at_unary {op : UnaryOper} (fetch : link.slots[pc]? = some (.unary op))
    (room : sp + 4 ≤ site.bottom)
    (next : ∀ after, Quiet executable (sp + 4) memory after →
      after.word sp = op.eval (memory.word sp) → site.Here executable sp after ambient →
      watch.At count site.live (pc + 1) site.fp sp after ambient) :
    watch.At count site.live pc site.fp sp memory ambient := by
  rw [installed.slots] at fetch
  refine Watch.at_unary here.stacked (good_here sound here within) fetch
    (Int.le_trans room (bottom_le_size sound here)) fun after put stacked => ?_
  obtain ⟨moved, quiet⟩ := here.replaced room put stacked
  exact (next after quiet put.word moved).mono (Nat.sub_le _ _)

/-- Replacing the two topmost words by the value of an operator, of which the one
below is the first operand. -/
theorem at_binary {op : BinaryOp} (fetch : link.slots[pc]? = some (.binary op))
    (room : sp + 8 ≤ site.bottom)
    (next : ∀ value, op.eval? (memory.word (sp + 4)) (memory.word sp) = some value → ∀ after,
      Quiet executable (sp + 8) memory after → after.word (sp + 4) = value →
      site.Here executable (sp + 4) after ambient →
      watch.At count site.live (pc + 1) site.fp (sp + 4) after ambient)
    (undefined : op.eval? (memory.word (sp + 4)) (memory.word sp) = none → ∀ state : State,
      state.input = ambient.input → state.output = ambient.output →
      watch.ends (.faulted .divisionByZero) state) :
    watch.At count site.live pc site.fp sp memory ambient := by
  rw [installed.slots] at fetch
  refine Watch.at_binary here.stacked (good_here sound here within) fetch
    (Int.le_trans room (bottom_le_size sound here)) (fun value result after put stacked => ?_)
    undefined
  obtain ⟨moved, quiet⟩ := here.replaced (by omega) put stacked
  rw [show sp + 4 + 4 = sp + 8 by omega] at quiet
  exact (next value result after quiet put.word moved).mono (Nat.sub_le _ _)

/-- Writing to the address on top of the stack the word below it. -/
theorem at_save {address : Int} (fetch : link.slots[pc]? = some .save)
    (room : sp + 8 ≤ site.bottom) (top : (memory.word sp).toInt = address)
    (writable : memory.Addressable address 4)
    (apart : ∀ index, address ≤ index → index < address + 4 → ¬site.kept index)
    (next : ∀ after, Memory.Put memory address (memory.word (sp + 4)) after →
      site.Here executable (sp + 8) after ambient →
      watch.At count site.live (pc + 1) site.fp (sp + 8) after ambient) :
    watch.At count site.live pc site.fp sp memory ambient := by
  rw [installed.slots] at fetch
  refine Watch.at_save here.stacked (good_here sound here within) fetch
    (Int.le_trans room (bottom_le_size sound here)) (top ▸ writable) fun after put stacked => ?_
  rw [top] at put
  exact (next after put (here.moved (stable_of_put put apart) stacked room here.data)).mono
    (Nat.sub_le _ _)

/-- Jumping to the address on top of the stack takes a step. -/
theorem at_ujmp {target : Int} (fetch : link.slots[pc]? = some .ujmp) (room : sp + 4 ≤ site.bottom)
    (top : (memory.word sp).toInt = target)
    (next : site.Here executable (sp + 4) memory ambient →
      watch.At (count - 1) site.live target site.fp (sp + 4) memory ambient) :
    watch.At count site.live pc site.fp sp memory ambient := by
  rw [installed.slots] at fetch
  have inside := bottom_le_size sound here
  exact Watch.at_ujmp here.stacked (good_here sound here within) fetch (by omega) top
    (next (here.popped (by omega) room inside))

/-- A conditional jump: the place for a condition that holds is on top, below it the
place for one that does not, and below that the condition. -/
theorem at_cjmp {yes no : Int} (fetch : link.slots[pc]? = some .cjmp)
    (room : sp + 12 ≤ site.bottom) (top : (memory.word sp).toInt = yes)
    (below : (memory.word (sp + 4)).toInt = no)
    (next : site.Here executable (sp + 12) memory ambient →
      watch.At count site.live (if memory.word (sp + 8) ≠ 0 then yes else no) site.fp (sp + 12)
        memory ambient) :
    watch.At count site.live pc site.fp sp memory ambient := by
  rw [installed.slots] at fetch
  have inside := bottom_le_size sound here
  exact Watch.at_cjmp here.stacked (good_here sound here within) fetch (by omega) top below
    ((next (here.popped (by omega) room inside)).mono (Nat.sub_le _ _))

/-- Dropping one word. -/
theorem at_drop (fetch : link.slots[pc]? = some .popn) (room : sp + 8 ≤ site.bottom)
    (top : memory.word sp = 4)
    (next : site.Here executable (sp + 8) memory ambient →
      watch.At count site.live (pc + 1) site.fp (sp + 8) memory ambient) :
    watch.At count site.live pc site.fp sp memory ambient := by
  rw [installed.slots] at fetch
  have inside := bottom_le_size sound here
  exact Watch.at_drop here.stacked (good_here sound here within) fetch (by omega) top
    ((next (here.popped (by omega) room inside)).mono (Nat.sub_le _ _))

end Rules

section Fragments

variable {program : Program} {layout : Layout} {rule : Rule} {link : Linkage}
  {watch : Watch executable} {count : Nat} {start stop : Int}
  (installed : Installed program layout rule executable link)
  (sound : site.Sound executable program layout link watch)
  (here : site.Here executable sp memory ambient)
  (covered : site.start ≤ start ∧ stop ≤ site.stop)

include installed sound here covered

/-- Branching on the word on top of the stack, inside the code of the site. -/
theorem at_branch {yes no : Int}
    (held : link.Holds start [.push (Word.ofInt no), .push (Word.ofInt yes), .cjmp] stop)
    (room : sp + 4 ≤ site.bottom) (yesInside : site.start ≤ yes ∧ yes ≤ site.stop)
    (noInside : site.start ≤ no ∧ no ≤ site.stop)
    (next : ∀ after, Quiet executable sp memory after → site.Here executable (sp + 4) after ambient →
      watch.At count site.live (if memory.word sp ≠ 0 then yes else no) site.fp (sp + 4) after
        ambient) :
    watch.At count site.live start site.fp sp memory ambient := by
  obtain ⟨fetchNo, fetchYes, fetchJump, rfl⟩ := held
  simp only [Opcode.size] at covered fetchYes fetchJump
  refine at_push installed.slots sound here ⟨covered.1, by omega⟩ fetchNo
    fun first quiet below moved => ?_
  refine at_push installed.slots sound moved ⟨by omega, by omega⟩ fetchYes
    fun second again top stays => ?_
  have kept : second.word (sp - 4 - 4 + 4) = first.word (sp - 4) := by
    rw [show sp - 4 - 4 + 4 = sp - 4 by omega]
    exact again.word fun index low high => .inr low
  have tested : second.word (sp - 4 - 4 + 8) = memory.word sp := by
    rw [show sp - 4 - 4 + 8 = sp by omega]
    exact (quiet.trans (again.mono (by omega))).word fun index low high => .inr low
  have yesTarget : (second.word (sp - 4 - 4)).toInt = yes := by
    rw [top]
    exact toInt_ofInt_of_code installed sound.toGrounded yesInside.1 yesInside.2
  have noTarget : (second.word (sp - 4 - 4 + 4)).toInt = no := by
    rw [kept, below]
    exact toInt_ofInt_of_code installed sound.toGrounded noInside.1 noInside.2
  refine at_cjmp installed sound stays ⟨by omega, by omega⟩ fetchJump (by omega) yesTarget noTarget
    fun popped => ?_
  rw [tested, show sp - 4 - 4 + 12 = sp + 4 by omega]
  rw [show sp - 4 - 4 + 12 = sp + 4 by omega] at popped
  exact next second (quiet.trans (again.mono (by omega))) popped

/-- Jumping inside the code of the site takes a step. -/
theorem at_jump {target : Int} (held : link.Holds start [.push (Word.ofInt target), .ujmp] stop)
    (inside : site.start ≤ target ∧ target ≤ site.stop)
    (next : ∀ after, Quiet executable sp memory after → site.Here executable sp after ambient →
      watch.At (count - 1) site.live target site.fp sp after ambient) :
    watch.At count site.live start site.fp sp memory ambient := by
  obtain ⟨fetch, fetchJump, rfl⟩ := held
  simp only [Opcode.size] at covered fetchJump
  have below := here.below
  refine at_push installed.slots sound here ⟨covered.1, by omega⟩ fetch
    fun after quiet top moved => ?_
  have there : (after.word (sp - 4)).toInt = target := by
    rw [top]
    exact toInt_ofInt_of_code installed sound.toGrounded inside.1 inside.2
  refine at_ujmp installed sound moved ⟨by omega, by omega⟩ fetchJump (by omega) there
    fun popped => ?_
  rw [show sp - 4 + 4 = sp by omega] at popped ⊢
  exact next after quiet popped

/-- Dropping the word on top of the stack. -/
theorem at_discard (held : link.Holds start [.push 4, .popn] stop) (room : sp + 4 ≤ site.bottom)
    (next : ∀ after, Quiet executable sp memory after → site.Here executable (sp + 4) after ambient →
      watch.At count site.live stop site.fp (sp + 4) after ambient) :
    watch.At count site.live start site.fp sp memory ambient := by
  obtain ⟨fetch, fetchDrop, rfl⟩ := held
  simp only [Opcode.size] at covered fetchDrop next
  refine at_push installed.slots sound here ⟨covered.1, by omega⟩ fetch
    fun after quiet top moved => ?_
  refine at_drop installed sound moved ⟨by omega, by omega⟩ fetchDrop (by omega) top
    fun popped => ?_
  rw [show sp - 4 + 8 = sp + 4 by omega] at popped ⊢
  exact next after quiet popped

end Fragments

section Initialization

variable {program : Program} {layout : Layout} {link : Linkage} {watch : Watch executable}
  {count : Nat} (arranged : Arranged program layout executable link)
  (slots : link.slots = executable.slots)
  (sound : site.Sound executable program layout link watch)
  (here : site.Here executable sp memory ambient)

include arranged slots sound here

/-- Expanding an initializer, with the place of its flat form on top of the stack and
below it the place where its contents go. -/
theorem at_initialize {pc target : Int} {items : List InitItem} {runs : List Initializer.Run}
    {own : DataBlock} (within : site.start ≤ pc ∧ pc < site.stop)
    (fetch : link.slots[pc]? = some .init) (room : sp + 8 ≤ site.bottom)
    (read : Initializer.runs items = .ok runs) (member : own ∈ topData layout program.defs)
    (words : own.words = Initializer.encode runs)
    (top : memory.word sp = Word.ofInt (link.words own.id))
    (below : memory.word (sp + 4) = Word.ofInt target)
    (low : executable.memory.codeSize ≤ target)
    (high : target + 4 * (Initializer.expand runs).length ≤ executable.memory.size)
    (apart : Memory.Apart (link.words own.id) (4 * own.words.length) target
      (4 * (Initializer.expand runs).length))
    (free : ∀ address, target ≤ address → address < target + 4 * (Initializer.expand runs).length →
      ¬site.kept address)
    (next : ∀ after : Memory,
      Memory.Outside target (target + 4 * (Initializer.expand runs).length) memory after →
      after.WordsAt target (Initializer.expand runs) → site.Here executable (sp + 8) after ambient →
      watch.At count site.live (pc + 1) site.fp (sp + 8) after ambient) :
    watch.At count site.live pc site.fp sp memory ambient := by
  have short := arranged.short member
  obtain ⟨first, stop, -⟩ := arranged.words own member
  obtain ⟨held, kept⟩ := sound.words own member
  rw [words] at short stop held kept apart
  have codeSize := arranged.codeSize_nonneg
  have data := arranged.dataEnd_le
  have size := arranged.size
  obtain ⟨fits, fit⟩ := Exec.countsFit_of_short read short
  have stays : memory.WordsAt (link.words own.id) (Initializer.encode runs) :=
    held.intact here.stable fun address above short => ⟨kept address above short, .inr (by omega)⟩
  have sameSize := here.size.trans sound.size
  have sameCode := here.stable.codeSize.trans sound.codeSize
  have source : (memory.word sp).toInt = link.words own.id := by
    rw [top]
    exact arranged.toInt_ofInt (by omega) (by omega)
  have place : (memory.word (sp + 4)).toInt = target := by
    rw [below]
    exact arranged.toInt_ofInt (by omega) (by omega)
  rw [slots] at fetch
  refine Watch.at_init here.stacked (good_here sound here within) fetch
    (Int.le_trans room (bottom_le_size sound here)) source place stays fits fit
    ⟨by omega, by omega⟩ ⟨by omega, by omega⟩ apart.separate fun after outside written stacked => ?_
  refine (next after outside written ?_).mono (Nat.sub_le _ _)
  refine here.moved (outside.mono fun address safe => ?_) stacked room here.data
  rcases Int.lt_or_le address target with before | above
  · exact .inl before
  · exact .inr (Int.not_lt.mp fun inside => free address above inside safe.1)

end Initialization

end Site

/-- The first word of a variable that holds the contents of its initializer. -/
theorem VarDef.word_of_contents {declared : VarDef} {words : List Int} {memory : Memory}
    {address : Int} (contents : Initializer.contents? declared.items = some words)
    (sized : Initializer.contents? declared.items ≠ some []) (held : memory.WordsAt address words) :
    memory.word address = declared.firstWord := by
  rw [firstWord, contents, Option.getD_some]
  cases words with
  | nil => exact absurd contents sized
  | cons word rest => exact held.1

end ScopeStack
