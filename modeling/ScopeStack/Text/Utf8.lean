/-!
# UTF-8

Text is decoded one byte at a time. Between bytes the decoder is either at a
character boundary or inside a sequence, where it knows how many continuation
bytes are owed and the range that the next one must lie in. The range is
narrower after some first bytes, which excludes overlong forms, surrogates and
values above `U+10FFFF`.
-/

namespace ScopeStack.Utf8

/-- Why bytes are not UTF-8: where the offending sequence starts, and how many
of its bytes are wrong together, or nothing if the input ends inside it. -/
structure Malformed where
  index : Nat
  length : Option Nat
deriving DecidableEq, Repr

/-- A sequence in progress. -/
structure Pending where
  /-- Index of the first byte of the sequence. -/
  start : Nat
  /-- Bytes read so far. -/
  seen : Nat
  /-- Continuation bytes still owed after the next one. -/
  owed : Nat
  /-- Bits collected so far. -/
  bits : Nat
  /-- Least value of the next byte. -/
  low : Nat
  /-- Greatest value of the next byte. -/
  high : Nat

/-- What a byte at a character boundary begins. -/
inductive Lead where
  | single (char : Char)
  | sequence (pending : Pending)
  | invalid

/-- Classify a byte at a character boundary. -/
def lead (index : Nat) (byte : Nat) : Lead :=
  if byte < 0x80 then .single (Char.ofNat byte)
  else if byte < 0xC2 then .invalid
  else if byte < 0xE0 then .sequence ⟨index, 1, 0, byte - 0xC0, 0x80, 0xBF⟩
  else if byte = 0xE0 then .sequence ⟨index, 1, 1, 0, 0xA0, 0xBF⟩
  else if byte = 0xED then .sequence ⟨index, 1, 1, 0xD, 0x80, 0x9F⟩
  else if byte < 0xF0 then .sequence ⟨index, 1, 1, byte - 0xE0, 0x80, 0xBF⟩
  else if byte = 0xF0 then .sequence ⟨index, 1, 2, 0, 0x90, 0xBF⟩
  else if byte < 0xF4 then .sequence ⟨index, 1, 2, byte - 0xF0, 0x80, 0xBF⟩
  else if byte = 0xF4 then .sequence ⟨index, 1, 2, 4, 0x80, 0x8F⟩
  else .invalid

/-- Decode bytes from a boundary or from inside a sequence. `index` is the
position of the next byte, and `seen` holds the characters before it, the last
one first. -/
def decodeFrom (index : Nat) (seen : List Char) :
    Option Pending → List UInt8 → Except Malformed (List Char)
  | none, [] => .ok seen.reverse
  | some pending, [] => .error ⟨pending.start, none⟩
  | none, byte :: rest =>
    match lead index byte.toNat with
    | .single char => decodeFrom (index + 1) (char :: seen) none rest
    | .sequence pending => decodeFrom (index + 1) seen (some pending) rest
    | .invalid => .error ⟨index, some 1⟩
  | some pending, byte :: rest =>
    if pending.low ≤ byte.toNat ∧ byte.toNat ≤ pending.high then
      let bits := pending.bits * 64 + (byte.toNat - 0x80)
      match pending.owed with
      | 0 => decodeFrom (index + 1) (Char.ofNat bits :: seen) none rest
      | owed + 1 =>
        decodeFrom (index + 1) seen
          (some ⟨pending.start, pending.seen + 1, owed, bits, 0x80, 0xBF⟩) rest
    else .error ⟨pending.start, some pending.seen⟩

/-- The characters that a byte sequence encodes. -/
def decode (bytes : List UInt8) : Except Malformed (List Char) := decodeFrom 0 [] none bytes

/-- The UTF-8 form of a character sequence. -/
def encode (text : List Char) : List UInt8 := text.flatMap String.utf8EncodeChar

/-- The description of a malformed sequence. -/
def Malformed.message (malformed : Malformed) : String :=
  match malformed.length with
  | some length =>
    "invalid utf-8 sequence of " ++ toString length ++ " bytes from index " ++
      toString malformed.index
  | none => "incomplete utf-8 byte sequence from index " ++ toString malformed.index

end ScopeStack.Utf8
