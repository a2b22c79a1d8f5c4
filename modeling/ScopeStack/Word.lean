/-!
# Machine words

A word is a signed integer of 32 bits. Memory holds it as four bytes, least
significant first. Layout and code emission compute with unbounded integers;
a value becomes a word when it enters memory or an instruction operand, and
`Word.Fits` says when nothing is lost on the way.
-/

namespace ScopeStack

/-- A signed machine word of 32 bits, with wrapping arithmetic. -/
abbrev Word := Int32

namespace Word

/-- The integer is representable as a word. -/
def Fits (value : Int) : Prop := -2147483648 ≤ value ∧ value ≤ 2147483647

instance (value : Int) : Decidable (Fits value) :=
  inferInstanceAs (Decidable (_ ∧ _))

/-- The word congruent to an integer modulo `2 ^ 32`. -/
abbrev ofInt (value : Int) : Word := Int32.ofInt value

/-- The truth value of a comparison: one or zero. -/
def ofBool (truth : Bool) : Word := if truth then 1 else 0

/-- The bits of a word read as a natural number below `2 ^ 32`. -/
def bits (word : Word) : Nat := word.toUInt32.toNat

/-- Byte number `index` of a word, counted from the least significant one. -/
def byte (word : Word) (index : Nat) : UInt8 := UInt8.ofNat (bits word >>> (8 * index))

/-- The word made of four bytes, least significant first. -/
def ofBytes (byte₀ byte₁ byte₂ byte₃ : UInt8) : Word :=
  Int32.ofNat (byte₀.toNat + 256 * byte₁.toNat + 65536 * byte₂.toNat + 16777216 * byte₃.toNat)

/-- The bits of a word are below `2 ^ 32`. -/
theorem bits_lt (word : Word) : bits word < 4294967296 := word.toUInt32.toNat_lt

/-- A word is determined by its bits. -/
theorem ofNat_bits (word : Word) : Int32.ofNat (bits word) = word := by
  apply Int32.toBitVec_inj.mp
  simp [bits, Int32.ofNat]

/-- The value of a byte of a word. -/
theorem toNat_byte (word : Word) (index : Nat) :
    (byte word index).toNat = bits word >>> (8 * index) % 256 := by
  simp [byte]

/-- A word is made of its four bytes. -/
theorem ofBytes_byte (word : Word) :
    ofBytes (byte word 0) (byte word 1) (byte word 2) (byte word 3) = word := by
  have below := bits_lt word
  have whole : bits word >>> (8 * 0) % 256 + 256 * (bits word >>> (8 * 1) % 256) +
      65536 * (bits word >>> (8 * 2) % 256) + 16777216 * (bits word >>> (8 * 3) % 256) =
      bits word := by omega
  simp only [ofBytes, toNat_byte]
  rw [whole, ofNat_bits]

end Word

end ScopeStack
