import ScopeStack.Literal
import ScopeStack.Proofs.Machine.Calling
import ScopeStack.Proofs.Machine.Reading

/-!
# Numbers through the streams

A number is written as its decimal digits, which are not white space. So numbers
that are written with white space between them are read back as they were, in
their order. What is read as a number is what is a number in a program.
-/

namespace ScopeStack

/-- The decimal text of an integer, as bytes. -/
def Decimal.bytes (value : Int) : List UInt8 := Utf8.encode (render value)

namespace Input

variable {gap rest stream : List UInt8} {values : List Word}

/-- No part of a numeral is white space. -/
theorem solid_spelling (numeral : Decimal.Numeral) :
    ∀ byte ∈ Utf8.encode numeral.spelling, isBlank byte = false := by
  have signs : ∀ sign : Decimal.Sign, ∀ byte ∈ String.utf8EncodeChar sign.char,
      isBlank byte = false := by
    intro sign
    cases sign <;> decide +kernel
  have digits : ∀ digit : Fin 10, ∀ byte ∈ String.utf8EncodeChar digit.val.digitChar,
      isBlank byte = false := by decide +kernel
  intro byte inside
  obtain ⟨char, spelled, encoded⟩ := List.mem_flatMap.mp inside
  rw [Decimal.Numeral.spelling, Decimal.spellDigits, List.mem_append] at spelled
  rcases spelled with spelled | spelled
  · obtain ⟨sign, -, rfl⟩ := Option.map_eq_some_iff.mp (Option.mem_toList.mp spelled)
    exact signs sign byte encoded
  · obtain ⟨digit, -, rfl⟩ := List.mem_map.mp spelled
    exact digits digit byte encoded

/-- The decimal text of an integer is a word. -/
theorem bytes_is_word (value : Int) :
    Decimal.bytes value ≠ [] ∧ ∀ byte ∈ Decimal.bytes value, isBlank byte = false := by
  obtain ⟨numeral, spelled, -⟩ := Decimal.integer?_eq_some_iff.mp (Decimal.integer?_render value)
  rw [Decimal.bytes, ← spelled]
  refine ⟨fun none => ?_, solid_spelling numeral⟩
  exact Decimal.spelling_ne_nil numeral (Utf8.encode_eq_nil_iff.mp none)

/-- A word that is text is read as the number that it spells. -/
theorem readInt_eq_ok_iff {input : List UInt8} {text : List Char} {value : Int}
    (nonempty : text ≠ []) (found : token input = Utf8.encode text) :
    (readInt input).1 = .ok value ↔ Decimal.word? text = some value := by
  have some : Utf8.encode text ≠ [] := fun none => nonempty (Utf8.encode_eq_nil_iff.mp none)
  have read : (readToken input).1 = .ok (String.ofList text) := by
    simp [readToken, found, some, Utf8.decode_eq_ok_iff.mpr rfl]
  rw [readInt_of_readToken read, String.toList_ofList]
  cases Decimal.word? text <;> simp

/-- A number that has been written is read, whatever white space is before it. -/
theorem perform_number {value : Word} (divides : Divides gap (Decimal.bytes value.toInt) rest) :
    Request.number.perform (gap ++ Decimal.bytes value.toInt ++ rest) =
      (.ok (.number value.toInt), rest) := by
  obtain ⟨found, after⟩ := divides.token_eq
  have nonempty : Decimal.render value.toInt ≠ [] := fun none =>
    (bytes_is_word value.toInt).1 (Utf8.encode_eq_nil_iff.mpr none)
  have read := (readInt_eq_ok_iff nonempty found).mpr
    (Decimal.word?_render (Word.fits_toInt value))
  refine Prod.ext ?_ after
  rw [Request.perform, read]
  rfl

/-- Once there is only white space, the input ends. -/
theorem perform_number_of_blank (blank : ∀ byte ∈ gap, isBlank byte = true) :
    Request.number.perform gap = (.error .endOfInput, []) := by
  have divides : Divides gap [] [] := ⟨blank, by simp, by simp, fun _ => rfl⟩
  obtain ⟨none, after⟩ := divides.token_eq
  rw [List.append_nil, List.append_nil] at none after
  exact Prod.ext ((ended_iff gap).2.mpr none) after

/-- Numbers are written one after another with white space between them. -/
inductive Separated : List Word → List UInt8 → Prop where
  | nil : Separated [] []
  | single (value : Word) : Separated [value] (Decimal.bytes value.toInt)
  | cons (value : Word) {next : Word} {values : List Word} {gap stream : List UInt8}
    (nonempty : gap ≠ []) (blank : ∀ byte ∈ gap, isBlank byte = true)
    (later : Separated (next :: values) stream) :
    Separated (value :: next :: values) (Decimal.bytes value.toInt ++ gap ++ stream)

/-- The white space in front is what follows the number before. -/
theorem Separated.performAll_eq (separated : Separated values stream)
    (blank : ∀ byte ∈ gap, isBlank byte = true) :
    performAll (List.replicate (values.length + 1) .number) (gap ++ stream) =
      (values.map (fun value => .ok (.number value.toInt)) ++ [.error .endOfInput], []) := by
  induction separated generalizing gap with
  | nil =>
    rw [List.append_nil]
    simp [performAll, perform_number_of_blank blank]
  | single value =>
    have solid := bytes_is_word value.toInt
    have divides : Divides gap (Decimal.bytes value.toInt) [] :=
      ⟨blank, solid.2, by simp, fun _ => rfl⟩
    have ended := @perform_number_of_blank [] (by simp)
    have read := perform_number divides
    rw [List.append_nil] at read
    simp [performAll, read, ended]
  | @cons value next values between stream nonempty blanks later hypothesis =>
    have solid := bytes_is_word value.toInt
    have divides : Divides gap (Decimal.bytes value.toInt) (between ++ stream) := by
      refine ⟨blank, solid.2, fun byte first => blanks byte ?_, fun none => absurd none solid.1⟩
      rw [List.head?_append_of_ne_nil _ nonempty] at first
      exact List.mem_of_head? first
    rw [List.append_assoc, ← List.append_assoc, List.length_cons, List.replicate_succ,
      performAll_cons, perform_number divides, hypothesis blanks]
    rfl

/-- A text without white space is read like a constant of a program. -/
theorem readInt_encode_iff {text : String} {value : Int} (nonempty : text ≠ "")
    (solid : ∀ byte ∈ Utf8.encode text.toList, isBlank byte = false) :
    (readInt (Utf8.encode text.toList)).1 = .ok value ↔ Literal.readInt text = .ok value := by
  have divides : Divides [] (Utf8.encode text.toList) [] :=
    ⟨by simp, solid, by simp, fun _ => rfl⟩
  have found := divides.token_eq.1
  rw [List.append_nil, List.nil_append] at found
  rw [readInt_eq_ok_iff (by simpa using nonempty) found, Literal.readInt]
  cases Decimal.word? text.toList <;> simp

end Input

open Input

/-- Writing and reading numbers are inverse, and constants are read in the same
way. A step that calls `putint` writes the decimal text of its argument. When
texts of words are written with white space between them, reading numbers gives
the same words in the same order and then the end of the input. A text without
white space is read as a number if and only if it is an integer constant of a
program, and both give the same number. -/
theorem numbers_read_back :
    (∀ (executable : Executable) (state : State) (value : Int),
      executable.CallsWith .putint value state → executable.Puts state (Decimal.bytes value)) ∧
    (∀ values stream, Separated values stream →
      performAll (List.replicate (values.length + 1) .number) stream =
        (values.map (fun value => .ok (.number value.toInt)) ++ [.error .endOfInput], [])) ∧
    ∀ text : String, text ≠ "" → (∀ byte ∈ Utf8.encode text.toList, isBlank byte = false) →
      ∀ value, (readInt (Utf8.encode text.toList)).1 = .ok value ↔
        Literal.readInt text = .ok value := by
  refine ⟨fun executable state value calls => ?_, fun values stream separated => ?_, ?_⟩
  · exact calls.puts rfl rfl
  · exact @Separated.performAll_eq [] stream values separated (by simp)
  · exact fun text nonempty solid value => readInt_encode_iff nonempty solid

/-- The least, the middle and the greatest number are shown and read back, and a fourth one is
missing. -/
theorem numbers_read_back_sample :
    Executable.calling.Puts (.calling .putint (-2147483648) (.zero 64 1) [])
      (Decimal.bytes (-2147483648)) ∧
    performAll [.number, .number, .number, .number]
      (Decimal.bytes (-2147483648) ++ [0x20, 0x0A] ++
        (Decimal.bytes 0 ++ [0x09] ++ Decimal.bytes 2147483647)) =
      ([.ok (.number (-2147483648)), .ok (.number 0), .ok (.number 2147483647),
        .error .endOfInput], []) ∧
    (readInt (Utf8.encode "+007".toList)).1 = .ok 7 := by
  obtain ⟨puts, reads, agree⟩ := numbers_read_back
  refine ⟨?_, ?_, ?_⟩
  · exact puts _ _ _ (Executable.callsWith_calling .putint (-2147483648) rfl rfl [])
  · exact reads [-2147483648, 0, 2147483647] _ (.cons (-2147483648) (by decide) (by decide +kernel)
      (.cons 0 (by decide) (by decide +kernel) (.single 2147483647)))
  · exact (agree "+007" (by decide) (by decide +kernel) 7).mpr (by decide +kernel)

end ScopeStack
