import ScopeStack.Text.Utf8

/-!
# Decoding UTF-8

Decoding accepts exactly what encoding produces. A first byte is either a
character by itself or begins a sequence; `Pending.Completes` says which bytes
complete a sequence in progress, and `utf8EncodeChar_eq_cons_iff` that these are
the bytes of a character, neither longer than needed nor a surrogate.
-/

namespace ScopeStack.Utf8

/-- Bytes complete a sequence in progress, which then encodes a code: the next
byte lies in the range allowed for it, and all after it are continuation
bytes. -/
inductive Pending.Completes : Pending → List UInt8 → Nat → Prop where
  | last {start seen bits low high : Nat} {byte : UInt8}
    (inside : low ≤ byte.toNat ∧ byte.toNat ≤ high) :
    Completes ⟨start, seen, 0, bits, low, high⟩ [byte] (bits * 64 + (byte.toNat - 0x80))
  | more {start seen owed bits low high code : Nat} {byte : UInt8} {tail : List UInt8}
    (inside : low ≤ byte.toNat ∧ byte.toNat ≤ high)
    (rest : Completes ⟨start, seen + 1, owed, bits * 64 + (byte.toNat - 0x80), 0x80, 0xBF⟩ tail
      code) :
    Completes ⟨start, seen, owed + 1, bits, low, high⟩ (byte :: tail) code

/-- What a first byte begins is completed by bytes to the form of a character. -/
def Lead.Spells : Lead → List UInt8 → Char → Prop
  | .single char, tail, other => other = char ∧ tail = []
  | .sequence pending, tail, other => ∃ code, pending.Completes tail code ∧ other = Char.ofNat code
  | .invalid, _, _ => False

/-- The form of a character by the size of its code. -/
theorem utf8EncodeChar_ofNat {code : Nat} (valid : code.isValidChar) :
    String.utf8EncodeChar (Char.ofNat code) =
      if code ≤ 127 then [UInt8.ofNat code]
      else if code ≤ 2047 then [UInt8.ofNat (code / 64 + 192), UInt8.ofNat (code % 64 + 128)]
      else if code ≤ 65535 then
        [UInt8.ofNat (code / 4096 + 224), UInt8.ofNat (code / 64 % 64 + 128),
          UInt8.ofNat (code % 64 + 128)]
      else
        [UInt8.ofNat (code / 262144 + 240), UInt8.ofNat (code / 4096 % 64 + 128),
          UInt8.ofNat (code / 64 % 64 + 128), UInt8.ofNat (code % 64 + 128)] := by
  have value : (Char.ofNat code).val.toNat = code := by
    rw [Char.ofNat, dif_pos valid]
    rfl
  simp only [String.utf8EncodeChar, value]
  split
  · rfl
  · split
    · rw [Nat.mod_eq_of_lt (show code / 64 < 32 by omega)]
    · split
      · rw [Nat.mod_eq_of_lt (show code / 4096 < 16 by omega)]
      · rw [Nat.mod_eq_of_lt (show code / 262144 < 8 by omega)]

section Lead

variable {index byte : Nat}

/-- A byte that starts a sequence of two. -/
theorem lead_of_two (low : 0xC2 ≤ byte) (high : byte < 0xE0) :
    lead index byte = .sequence ⟨index, 1, 0, byte - 0xC0, 0x80, 0xBF⟩ := by
  rw [lead, if_neg (by omega), if_neg (by omega), if_pos high]

/-- After the least first byte of three the second may not be small, which would
be an overlong form, and after `ED` it may not be large, which would be a
surrogate. -/
theorem lead_of_three (low : 0xE0 ≤ byte) (high : byte < 0xF0) :
    ∃ least greatest, lead index byte = .sequence ⟨index, 1, 1, byte - 0xE0, least, greatest⟩ ∧
      ∀ second, least ≤ second ∧ second ≤ greatest ↔
        0x80 ≤ second ∧ second ≤ 0xBF ∧ (byte = 0xE0 → 0xA0 ≤ second) ∧
          (byte = 0xED → second ≤ 0x9F) := by
  rw [lead, if_neg (by omega), if_neg (by omega), if_neg (by omega)]
  split
  next same => exact ⟨_, _, by rw [same], by omega⟩
  next =>
    split
    next same => exact ⟨_, _, by rw [same], by omega⟩
    next => exact ⟨_, _, rfl, by omega⟩

/-- The second byte of four is limited to codes above those of three bytes and
to the last code of all. -/
theorem lead_of_four (low : 0xF0 ≤ byte) (high : byte ≤ 0xF4) :
    ∃ least greatest, lead index byte = .sequence ⟨index, 1, 2, byte - 0xF0, least, greatest⟩ ∧
      ∀ second, least ≤ second ∧ second ≤ greatest ↔
        0x80 ≤ second ∧ second ≤ 0xBF ∧ (byte = 0xF0 → 0x90 ≤ second) ∧
          (byte = 0xF4 → second ≤ 0x8F) := by
  rw [lead, if_neg (by omega), if_neg (by omega), if_neg (by omega), if_neg (by omega),
    if_neg (by omega), if_neg (by omega)]
  split
  next same => exact ⟨_, _, by rw [same], by omega⟩
  next =>
    split
    next => exact ⟨_, _, rfl, by omega⟩
    next =>
      rw [if_pos (by omega), show byte = 0xF4 by omega]
      exact ⟨_, _, rfl, by omega⟩

/-- A byte that starts nothing. -/
theorem lead_of_invalid (invalid : 0x80 ≤ byte ∧ byte < 0xC2 ∨ 0xF4 < byte) :
    lead index byte = .invalid := by
  rw [lead, if_neg (by omega)]
  split
  · rfl
  · repeat rw [if_neg (by omega)]

end Lead

section Completes

variable {start seen owed bits low high code : Nat} {tail : List UInt8}

/-- The last byte of a sequence. -/
theorem completes_zero :
    Pending.Completes ⟨start, seen, 0, bits, low, high⟩ tail code ↔
      ∃ byte : UInt8, (low ≤ byte.toNat ∧ byte.toNat ≤ high) ∧
        code = bits * 64 + (byte.toNat - 0x80) ∧ tail = [byte] := by
  constructor
  · intro completes
    cases completes with
    | @last _ _ _ _ _ byte inside => exact ⟨byte, inside, rfl, rfl⟩
  · rintro ⟨byte, inside, sum, rfl⟩
    rw [sum]
    exact .last inside

/-- A byte of a sequence that is not the last. -/
theorem completes_succ :
    Pending.Completes ⟨start, seen, owed + 1, bits, low, high⟩ tail code ↔
      ∃ (byte : UInt8) (rest : List UInt8), (low ≤ byte.toNat ∧ byte.toNat ≤ high) ∧
        Pending.Completes ⟨start, seen + 1, owed, bits * 64 + (byte.toNat - 0x80), 0x80, 0xBF⟩ rest
          code ∧ tail = byte :: rest := by
  constructor
  · intro completes
    cases completes with
    | more inside rest => exact ⟨_, _, inside, rest, rfl⟩
  · rintro ⟨byte, rest, inside, completes, rfl⟩
    exact .more inside completes

end Completes

/-- The bytes of a character are a first byte and bytes that complete it. -/
theorem spells_of_utf8EncodeChar (index : Nat) {code : Nat} (valid : code.isValidChar)
    {byte : UInt8} {tail : List UInt8}
    (encoded : String.utf8EncodeChar (Char.ofNat code) = byte :: tail) :
    (lead index byte.toNat).Spells tail (Char.ofNat code) := by
  have small {value : Nat} (below : value < 256) : (UInt8.ofNat value).toNat = value :=
    UInt8.toNat_ofNat_of_lt' below
  have last := small (show code % 64 + 128 < 256 by omega)
  have second := small (show code / 64 % 64 + 128 < 256 by omega)
  have third := small (show code / 4096 % 64 + 128 < 256 by omega)
  rw [utf8EncodeChar_ofNat valid] at encoded
  split at encoded
  next one =>
    cases encoded
    rw [small (by omega), lead, if_pos (by omega)]
    exact ⟨rfl, rfl⟩
  next =>
    split at encoded
    next two =>
      cases encoded
      rw [small (by omega), lead_of_two (by omega) (by omega)]
      refine ⟨code, completes_zero.mpr ⟨_, ?_, ?_, rfl⟩, rfl⟩ <;> omega
    next =>
      split at encoded
      next three =>
        cases encoded
        rw [small (by omega)]
        obtain ⟨least, greatest, begins, range⟩ :=
          @lead_of_three index (code / 4096 + 224) (by omega) (by omega)
        rw [begins]
        refine ⟨code, completes_succ.mpr ⟨_, _, ?_, completes_zero.mpr ⟨_, ?_, ?_, rfl⟩, rfl⟩, rfl⟩
        · rw [range]
          omega
        · omega
        · omega
      next =>
        cases encoded
        rw [small (by omega)]
        obtain ⟨least, greatest, begins, range⟩ :=
          @lead_of_four index (code / 262144 + 240) (by omega) (by omega)
        rw [begins]
        refine ⟨code, completes_succ.mpr ⟨_, _, ?_, completes_succ.mpr ⟨_, _, ?_,
          completes_zero.mpr ⟨_, ?_, ?_, rfl⟩, rfl⟩, rfl⟩, rfl⟩
        · rw [range]
          omega
        · omega
        · omega
        · omega

/-- A first byte with bytes that complete it is the form of a character. -/
theorem utf8EncodeChar_of_spells (index : Nat) {char : Char} {byte : UInt8} {tail : List UInt8}
    (spells : (lead index byte.toNat).Spells tail char) :
    String.utf8EncodeChar char = byte :: tail := by
  have same {value : Nat} (byte : UInt8) (equal : value = byte.toNat) :
      UInt8.ofNat value = byte := by
    rw [equal, UInt8.ofNat_toNat]
  by_cases one : byte.toNat < 0x80
  · rw [lead, if_pos one] at spells
    obtain ⟨rfl, rfl⟩ := spells
    rw [utf8EncodeChar_ofNat (.inl (by omega)), if_pos (by omega), same byte rfl]
  by_cases invalid : byte.toNat < 0xC2 ∨ 0xF4 < byte.toNat
  · rw [lead_of_invalid (by omega)] at spells
    exact spells.elim
  by_cases two : byte.toNat < 0xE0
  · rw [lead_of_two (by omega) two] at spells
    obtain ⟨code, completes, rfl⟩ := spells
    obtain ⟨last, inside, sum, rfl⟩ := completes_zero.mp completes
    rw [utf8EncodeChar_ofNat (.inl (by omega)), if_neg (by omega), if_pos (by omega),
      same byte (by omega), same last (by omega)]
  by_cases three : byte.toNat < 0xF0
  · obtain ⟨least, greatest, begins, range⟩ := @lead_of_three index _ (Nat.not_lt.mp two) three
    rw [begins] at spells
    obtain ⟨code, completes, rfl⟩ := spells
    obtain ⟨second, _, inside, rest, rfl⟩ := completes_succ.mp completes
    obtain ⟨last, final, sum, rfl⟩ := completes_zero.mp rest
    rw [range] at inside
    have valid : code.isValidChar := by
      simp only [Nat.isValidChar]
      omega
    rw [utf8EncodeChar_ofNat valid, if_neg (by omega), if_neg (by omega), if_pos (by omega),
      same byte (by omega), same second (by omega), same last (by omega)]
  · obtain ⟨least, greatest, begins, range⟩ :=
      @lead_of_four index _ (Nat.not_lt.mp three) (by omega)
    rw [begins] at spells
    obtain ⟨code, completes, rfl⟩ := spells
    obtain ⟨second, _, inside, rest, rfl⟩ := completes_succ.mp completes
    obtain ⟨third, _, between, rest', rfl⟩ := completes_succ.mp rest
    obtain ⟨last, final, sum, rfl⟩ := completes_zero.mp rest'
    rw [range] at inside
    have valid : code.isValidChar := by
      simp only [Nat.isValidChar]
      omega
    rw [utf8EncodeChar_ofNat valid, if_neg (by omega), if_neg (by omega), if_neg (by omega),
      same byte (by omega), same second (by omega), same third (by omega), same last (by omega)]

/-- A character is encoded by the bytes that spell it. -/
theorem utf8EncodeChar_eq_cons_iff (index : Nat) {char : Char} {byte : UInt8} {tail : List UInt8} :
    String.utf8EncodeChar char = byte :: tail ↔ (lead index byte.toNat).Spells tail char := by
  refine ⟨fun encoded => ?_, utf8EncodeChar_of_spells index⟩
  rw [← Char.ofNat_toNat char] at encoded ⊢
  exact spells_of_utf8EncodeChar index char.valid encoded

/-- Decoding from inside a sequence completes it and goes on from there. -/
theorem decodeFrom_pending_eq_ok_iff {index : Nat} {seen text : List Char} {pending : Pending}
    {bytes : List UInt8} :
    decodeFrom index seen (some pending) bytes = .ok text ↔
      ∃ tail rest code, tail ++ rest = bytes ∧ pending.Completes tail code ∧
        decodeFrom (index + tail.length) (Char.ofNat code :: seen) none rest = .ok text := by
  induction bytes generalizing index pending with
  | nil =>
    constructor
    · intro decoded
      cases decoded
    · rintro ⟨tail, rest, code, empty, completes, -⟩
      obtain ⟨rfl, rfl⟩ := List.append_eq_nil_iff.mp empty
      cases completes
  | cons byte bytes hypothesis =>
    obtain ⟨start, size, owed, bits, low, high⟩ := pending
    rw [decodeFrom]
    dsimp only
    constructor
    · intro decoded
      split at decoded
      next inside =>
        cases owed with
        | zero => exact ⟨[byte], bytes, _, rfl, .last inside, decoded⟩
        | succ owed =>
          obtain ⟨tail, rest, code, rfl, completes, decoded⟩ := hypothesis.mp decoded
          refine ⟨byte :: tail, rest, code, rfl, .more inside completes, ?_⟩
          rwa [List.length_cons, Nat.add_comm tail.length, ← Nat.add_assoc]
      next => cases decoded
    · rintro ⟨_, rest, code, joined, inside | ⟨inside, completes⟩, decoded⟩
      · cases joined
        rwa [if_pos inside]
      · cases joined
        rw [if_pos inside]
        refine hypothesis.mpr ⟨_, rest, code, rfl, completes, ?_⟩
        rwa [List.length_cons, Nat.add_comm (List.length _), ← Nat.add_assoc] at decoded

/-- Decoding takes one character after another. -/
theorem decodeFrom_cons_eq_ok_iff {index : Nat} {seen text : List Char} {byte : UInt8}
    {bytes : List UInt8} :
    decodeFrom index seen none (byte :: bytes) = .ok text ↔
      ∃ tail rest char, (lead index byte.toNat).Spells tail char ∧ tail ++ rest = bytes ∧
        decodeFrom (index + 1 + tail.length) (char :: seen) none rest = .ok text := by
  rw [decodeFrom]
  cases lead index byte.toNat with
  | single char =>
    constructor
    · intro decoded
      exact ⟨[], bytes, char, ⟨rfl, rfl⟩, rfl, decoded⟩
    · rintro ⟨tail, rest, other, ⟨rfl, rfl⟩, rfl, decoded⟩
      exact decoded
  | sequence pending =>
    dsimp only
    rw [decodeFrom_pending_eq_ok_iff]
    constructor
    · rintro ⟨tail, rest, code, joined, completes, decoded⟩
      exact ⟨tail, rest, Char.ofNat code, ⟨code, completes, rfl⟩, joined, decoded⟩
    · rintro ⟨tail, rest, char, ⟨code, completes, rfl⟩, joined, decoded⟩
      exact ⟨tail, rest, code, joined, completes, decoded⟩
  | invalid =>
    constructor
    · intro decoded
      cases decoded
    · rintro ⟨tail, rest, char, impossible, -⟩
      exact impossible.elim

/-- So does encoding. -/
theorem encode_eq_cons_iff (index : Nat) {text : List Char} {byte : UInt8} {bytes : List UInt8} :
    encode text = byte :: bytes ↔
      ∃ tail char others, (lead index byte.toNat).Spells tail char ∧ tail ++ encode others = bytes ∧
        text = char :: others := by
  constructor
  · intro encoded
    cases text with
    | nil => cases encoded
    | cons char others =>
      cases first : String.utf8EncodeChar char with
      | nil => exact absurd first String.utf8EncodeChar_ne_nil
      | cons head tail =>
        rw [encode, List.flatMap_cons, first] at encoded
        cases encoded
        exact ⟨tail, char, others, (utf8EncodeChar_eq_cons_iff index).mp first, rfl, rfl⟩
  · rintro ⟨tail, char, others, spells, rfl, rfl⟩
    rw [encode, List.flatMap_cons, (utf8EncodeChar_eq_cons_iff index).mpr spells]
    rfl

/-- Only the empty text has an empty encoding. -/
theorem encode_eq_nil_iff {text : List Char} : encode text = [] ↔ text = [] := by
  cases text with
  | nil => simp [encode]
  | cons char others => simp [encode, String.utf8EncodeChar_ne_nil]

/-- What is decoded from some index on is what encodes the bytes that are left. -/
theorem decodeFrom_eq_ok_iff {index : Nat} {seen text : List Char} {bytes : List UInt8} :
    decodeFrom index seen none bytes = .ok text ↔
      ∃ later, encode later = bytes ∧ text = seen.reverse ++ later := by
  -- A character takes one byte or more, so what is left is shorter.
  induction size : bytes.length using Nat.strongRecOn generalizing index seen bytes with
  | ind length hypothesis =>
    cases bytes with
    | nil =>
      simp only [decodeFrom, encode_eq_nil_iff, exists_eq_left, List.append_nil, Except.ok.injEq]
      exact eq_comm
    | cons byte bytes =>
      subst size
      have shorter (tail rest : List UInt8) : rest.length < (byte :: (tail ++ rest)).length := by
        rw [List.length_cons, List.length_append]
        omega
      rw [decodeFrom_cons_eq_ok_iff]
      simp only [encode_eq_cons_iff index]
      constructor
      · rintro ⟨tail, rest, char, spells, rfl, decoded⟩
        obtain ⟨later, rfl, rfl⟩ := (hypothesis rest.length (shorter tail rest) rfl).mp decoded
        exact ⟨char :: later, ⟨tail, char, later, spells, rfl, rfl⟩, by simp⟩
      · rintro ⟨_, ⟨tail, char, later, spells, rfl, rfl⟩, rfl⟩
        refine ⟨tail, encode later, char, spells, rfl, ?_⟩
        exact (hypothesis (encode later).length (shorter tail _) rfl).mpr ⟨later, rfl, by simp⟩

/-- Bytes are decoded to a text if they are its encoded form. -/
theorem decode_eq_ok_iff {bytes : List UInt8} {text : List Char} :
    decode bytes = .ok text ↔ encode text = bytes := by
  rw [decode, decodeFrom_eq_ok_iff]
  simp

/-- Different texts have different forms. -/
theorem encode_inj {first second : List Char} : encode first = encode second ↔ first = second := by
  rw [← decode_eq_ok_iff, decode_eq_ok_iff.mpr rfl, Except.ok.injEq, eq_comm]

/-- Bytes that are not decoded are the form of no text. -/
theorem decode_error_iff {bytes : List UInt8} :
    (∃ cause, decode bytes = .error cause) ↔ ∀ text, encode text ≠ bytes := by
  simp only [ne_eq, ← decode_eq_ok_iff]
  cases decode bytes <;> simp

end ScopeStack.Utf8
