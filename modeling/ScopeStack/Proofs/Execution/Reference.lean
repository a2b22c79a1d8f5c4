import ScopeStack.Proofs.Linking.Code
import ScopeStack.Proofs.Machine.Memory
import ScopeStack.Proofs.Semantics

/-!
# Values of expressions over the memory of a machine

An expression without calls has a value in every state of a machine, which depends on memory and
the frame pointer only. Constants are numbers or the addresses of texts. A global variable lies
where its label is bound, any other at an offset from the base of a frame, which is found by
following access links from the frame pointer. Using a variable and following a pointer load a
word. Operators wrap, and operands are evaluated from left to right.

Evaluation can fault, and it keeps account of the addresses that it loads words from:
`Reading.Avoids` says that none of these words overlaps with a range of bytes, so that what is in
that range does not matter to the evaluation.
-/

namespace ScopeStack

/-- An evaluation that reads memory: how it ends, and where it has loaded words. -/
structure Reading (α : Type) where
  result : Except Fault α
  loads : List Int

namespace Reading

variable {α β : Type}

/-- Stop with a fault. -/
def fail (fault : Fault) : Reading α := ⟨.error fault, []⟩

instance : Monad Reading where
  pure value := ⟨.ok value, []⟩
  bind first second :=
    match first.result with
    | .ok value => ⟨(second value).result, first.loads ++ (second value).loads⟩
    | .error fault => ⟨.error fault, first.loads⟩

/-- Load the word at an address. -/
def load (memory : Memory) (address : Word) : Reading Word :=
  if memory.Addressable address.toInt 4 then
    ⟨.ok (memory.word address.toInt), [address.toInt]⟩
  else fail (.memoryFault address.toInt)

/-- Follow a number of access links from the base of a frame. -/
def follow (memory : Memory) : Nat → Word → Reading Word
  | 0, base => pure base
  | hops + 1, base => do load memory (← follow memory hops base)

/-- Apply an operator to two words; the result wraps. -/
def operate (op : BinaryOp) (first second : Word) : Reading Word :=
  match op.meaning first.toInt second.toInt with
  | some number => pure (Word.ofInt number)
  | none => fail .divisionByZero

/-- No word that is loaded overlaps with the bytes of a range. -/
def Avoids (reading : Reading α) (low high : Int) : Prop :=
  ∀ address ∈ reading.loads, Memory.Apart address 4 low (high - low)

/-- Two readings load what both of them do. -/
theorem bind_of_ok {first : Reading α} {value : α} (ends : first.result = .ok value)
    (second : α → Reading β) :
    first >>= second = ⟨(second value).result, first.loads ++ (second value).loads⟩ := by
  simp only [bind, ends]

/-- After a reading that fails nothing more is loaded. -/
theorem bind_of_error {first : Reading α} {fault : Fault} (fails : first.result = .error fault)
    (second : α → Reading β) : first >>= second = ⟨.error fault, first.loads⟩ := by
  simp only [bind, fails]

/-- Addition of words wraps. -/
theorem operate_add (first second : Word) :
    operate .add first second = pure (first + second) := by
  rw [operate, BinaryOp.meaning]
  dsimp only
  rw [Word.ofInt, Int32.ofInt_add, Int32.ofInt_toInt, Int32.ofInt_toInt]

/-- The first part of an evaluation loads no other words than the whole. -/
theorem Avoids.first {first : Reading α} {second : α → Reading β} {low high : Int}
    (avoids : (first >>= second).Avoids low high) : first.Avoids low high := by
  intro address loaded
  cases ends : first.result with
  | ok value =>
    rw [bind_of_ok ends] at avoids
    exact avoids address (List.mem_append_left _ loaded)
  | error fault =>
    rw [bind_of_error ends] at avoids
    exact avoids address loaded

/-- Nor does the second part. -/
theorem Avoids.second {first : Reading α} {second : α → Reading β} {low high : Int} {value : α}
    (avoids : (first >>= second).Avoids low high) (ends : first.result = .ok value) :
    (second value).Avoids low high := by
  intro address loaded
  rw [bind_of_ok ends] at avoids
  exact avoids address (List.mem_append_right _ loaded)

end Reading

/-- No function is called. -/
def Expr.CallFree : Expr → Prop
  | .atom _ _ => True
  | .var _ _ => True
  | .unary _ _ operand => operand.CallFree
  | .binary _ _ first second => first.CallFree ∧ second.CallFree
  | .call _ _ _ => False

/-- What the value of an expression depends on: what its names refer to and where that lies, the
frame pointer and memory. -/
structure Setting where
  context : Emission.Context
  executable : Executable
  fp : Int
  memory : Memory

namespace Setting

open Emission

variable (setting : Setting)

/-- The address that a name stands for. -/
def named (name : String) : Word := Word.ofInt (Executable.addressOf setting.executable.labels name)

/-- The address of the variable that a use refers to. -/
def variableAt (id : NodeId) : Reading Word :=
  match setting.context.accessOf? id with
  | none => pure 0
  | some (.abs access) => pure (setting.named access.label)
  | some (.rel access) => do
    let base ← Reading.follow setting.memory (setting.context.distance access.depth)
      (Word.ofInt setting.fp)
    return base + Word.ofInt access.offset

/-- The value of an expression without calls whose first data block has a given number. A text is
the address of its block. -/
def value : Expr → Nat → Reading Word
  | .atom _ atom, block =>
    match atom.kind with
    | .str => pure (setting.named (":" ++ toString block))
    | _ => pure (Word.ofInt atom.number)
  | .var id _, _ => do Reading.load setting.memory (← setting.variableAt id)
  | .unary _ .plus operand, block => value operand block
  | .unary _ .not operand, block => do
    let word ← value operand block
    return if word = 0 then 1 else 0
  | .unary _ .minus operand, block => do
    let word ← value operand block
    return Word.ofInt (-word.toInt)
  | .unary _ .valueAt operand, block => do Reading.load setting.memory (← value operand block)
  | .unary _ .addressOf operand, _ => setting.variableAt operand.id
  | .binary _ op first second, block => do
    let left ← value first block
    let right ← value second (block + (valueData first).length)
    Reading.operate op left right
  | .call _ _ _, _ => pure 0

/-- The address of a place without calls: a variable or a pointer that is followed. -/
def place : Expr → Nat → Reading Word
  | .unary _ .valueAt pointer, block => setting.value pointer block
  | other, _ => setting.variableAt other.id

end Setting

namespace Emission.Context

variable (context : Context)

/-- The words that the code for the address of a variable needs on the stack: the base of a frame
and the offset in it, or the address alone. -/
def variableDepth (id : NodeId) : Nat :=
  match context.accessOf? id with
  | some (.rel _) => 2
  | _ => 1

/-- The words that the code for the value of an expression needs on the stack at most. The value
of a first operand stays there while the second one is evaluated. -/
def valueDepth : Expr → Nat
  | .atom _ _ => 1
  | .var id _ => context.variableDepth id
  | .unary _ .addressOf operand => context.variableDepth operand.id
  | .unary _ _ operand => valueDepth operand
  | .binary _ _ first second => max (valueDepth first) (valueDepth second + 1)
  | .call _ _ _ => 1

/-- The words that the code for the address of a place needs on the stack at most. -/
def placeDepth : Expr → Nat
  | .unary _ .valueAt pointer => context.valueDepth pointer
  | other => context.variableDepth other.id

end Emission.Context

end ScopeStack
