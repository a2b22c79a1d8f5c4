/-!
# SHA-256

The hash of a byte sequence. The message is padded to a multiple of 64 bytes,
and each block of 64 bytes is mixed into a state of eight words in 64 rounds.
-/

namespace ScopeStack.Sha256

/-- The state between blocks. -/
structure Digest where
  a : UInt32
  b : UInt32
  c : UInt32
  d : UInt32
  e : UInt32
  f : UInt32
  g : UInt32
  h : UInt32
deriving DecidableEq, Repr

/-- The state before the first block. -/
def initial : Digest :=
  ⟨0x6a09e667, 0xbb67ae85, 0x3c6ef372, 0xa54ff53a, 0x510e527f, 0x9b05688c, 0x1f83d9ab, 0x5be0cd19⟩

/-- A constant for each round. -/
def roundConstants : List UInt32 :=
  [0x428a2f98, 0x71374491, 0xb5c0fbcf, 0xe9b5dba5, 0x3956c25b, 0x59f111f1, 0x923f82a4, 0xab1c5ed5,
   0xd807aa98, 0x12835b01, 0x243185be, 0x550c7dc3, 0x72be5d74, 0x80deb1fe, 0x9bdc06a7, 0xc19bf174,
   0xe49b69c1, 0xefbe4786, 0x0fc19dc6, 0x240ca1cc, 0x2de92c6f, 0x4a7484aa, 0x5cb0a9dc, 0x76f988da,
   0x983e5152, 0xa831c66d, 0xb00327c8, 0xbf597fc7, 0xc6e00bf3, 0xd5a79147, 0x06ca6351, 0x14292967,
   0x27b70a85, 0x2e1b2138, 0x4d2c6dfc, 0x53380d13, 0x650a7354, 0x766a0abb, 0x81c2c92e, 0x92722c85,
   0xa2bfe8a1, 0xa81a664b, 0xc24b8b70, 0xc76c51a3, 0xd192e819, 0xd6990624, 0xf40e3585, 0x106aa070,
   0x19a4c116, 0x1e376c08, 0x2748774c, 0x34b0bcb5, 0x391c0cb3, 0x4ed8aa4a, 0x5b9cca4f, 0x682e6ff3,
   0x748f82ee, 0x78a5636f, 0x84c87814, 0x8cc70208, 0x90befffa, 0xa4506ceb, 0xbef9a3f7, 0xc67178f2]

/-- Rotate a word to the right. -/
def rotate (word : UInt32) (count : UInt32) : UInt32 :=
  (word >>> count) ||| (word <<< (32 - count))

/-- The words of a sequence of bytes, most significant byte first. -/
def wordsOfBytes : List UInt8 → List UInt32
  | a :: b :: c :: d :: rest =>
    ((a.toUInt32 <<< 24) ||| (b.toUInt32 <<< 16) ||| (c.toUInt32 <<< 8) ||| d.toUInt32) ::
      wordsOfBytes rest
  | _ => []

/-- Extend the sixteen words of a block to one for each round. -/
def schedule (block : Array UInt32) : Array UInt32 :=
  (List.range 48).foldl
    (fun words index =>
      let early := words.getD (index + 1) 0
      let late := words.getD (index + 14) 0
      words.push
        (words.getD index 0 +
          (rotate early 7 ^^^ rotate early 18 ^^^ (early >>> 3)) +
          words.getD (index + 9) 0 +
          (rotate late 17 ^^^ rotate late 19 ^^^ (late >>> 10))))
    block

/-- One round. -/
def round (digest : Digest) (constant word : UInt32) : Digest :=
  let ⟨a, b, c, d, e, f, g, h⟩ := digest
  let first :=
    h + (rotate e 6 ^^^ rotate e 11 ^^^ rotate e 25) + ((e &&& f) ^^^ ((~~~e) &&& g)) + constant + word
  let second := (rotate a 2 ^^^ rotate a 13 ^^^ rotate a 22) + ((a &&& b) ^^^ (a &&& c) ^^^ (b &&& c))
  ⟨first + second, a, b, c, d + first, e, f, g⟩

/-- Mix a block of 64 bytes into the state. -/
def compress (digest : Digest) (block : List UInt8) : Digest :=
  let words := (schedule (wordsOfBytes block).toArray).toList
  let mixed :=
    (roundConstants.zip words).foldl (fun state (constant, word) => round state constant word) digest
  ⟨digest.a + mixed.a, digest.b + mixed.b, digest.c + mixed.c, digest.d + mixed.d,
    digest.e + mixed.e, digest.f + mixed.f, digest.g + mixed.g, digest.h + mixed.h⟩

/-- Byte number `index` of a number, counted from the least significant one. -/
def byteOf (number index : Nat) : UInt8 := UInt8.ofNat (number >>> (8 * index))

/-- What is appended to a message: a one bit, zeros, and the length in bits. -/
def padding (length : Nat) : List UInt8 :=
  0x80 :: List.replicate ((119 - length % 64) % 64) 0 ++
    [7, 6, 5, 4, 3, 2, 1, 0].map (byteOf (8 * length))

/-- Mix a number of blocks into the state. -/
def absorb : Nat → List UInt8 → Digest → Digest
  | 0, _, digest => digest
  | blocks + 1, bytes, digest => absorb blocks (bytes.drop 64) (compress digest (bytes.take 64))

/-- The hash of a message. -/
def digest (message : List UInt8) : Digest :=
  let padded := message ++ padding message.length
  absorb (padded.length / 64) padded initial

/-- A word as eight hexadecimal digits. -/
def hexWord (word : UInt32) : List Char :=
  [7, 6, 5, 4, 3, 2, 1, 0].map fun index => Nat.digitChar (word.toNat >>> (4 * index) % 16)

/-- The hash of a message as hexadecimal digits. -/
def hex (message : List UInt8) : String :=
  let result := digest message
  String.ofList
    ([result.a, result.b, result.c, result.d, result.e, result.f, result.g, result.h].flatMap
      hexWord)

end ScopeStack.Sha256
