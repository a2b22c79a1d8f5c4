import Mathlib.Data.List.Forall2
import Mathlib.Data.List.TakeWhile
import ScopeStack.Machine.Stream
import ScopeStack.Proofs.Text.Encoding
import ScopeStack.Proofs.Text.Numerals

/-!
# Reading the input

Words, numbers and lines can be read in any order. Every request takes a piece
from the front of the input, whether or not it succeeds: `Input.Reads` says
which piece this is and what the answer is, without reference to how it is
found. A `Transcript` follows a sequence of requests, each of which starts where
the one before has stopped, so that nothing is lost and nothing is read twice.
-/

namespace ScopeStack.Input

/-- A way to read from the input. -/
inductive Request where
  | word
  | number
  | line
deriving DecidableEq, Repr

/-- What a request gives. -/
inductive Answer where
  | text (text : String)
  | number (value : Int)
deriving DecidableEq, Repr

/-- Carry out a request, and return what is left of the input. -/
def Request.perform : Request → List UInt8 → Except Fault Answer × List UInt8
  | .word, input => ((readToken input).1.map .text, (readToken input).2)
  | .number, input => ((readInt input).1.map .number, (readInt input).2)
  | .line, input =>
    ((readLine input).1.map fun line => .text (String.ofList line), (readLine input).2)

/-- Carry out requests one after another, also after one that has failed. -/
def performAll : List Request → List UInt8 → List (Except Fault Answer) × List UInt8
  | [], input => ([], input)
  | request :: later, input =>
    let (answer, rest) := request.perform input
    let (answers, final) := performAll later rest
    (answer :: answers, final)

/-- The answer to a first request, and then those to the remaining ones. -/
theorem performAll_cons (request : Request) (later : List Request) (input : List UInt8) :
    performAll (request :: later) input =
      ((request.perform input).1 :: (performAll later (request.perform input).2).1,
        (performAll later (request.perform input).2).2) := rfl

/-- Bytes are white space, then a word that is as long as it can be, then the
rest. Without a word the white space goes on to the end. -/
structure Divides (gap word rest : List UInt8) : Prop where
  blank : ∀ byte ∈ gap, isBlank byte = true
  solid : ∀ byte ∈ word, isBlank byte = false
  boundary : ∀ byte ∈ rest.head?, isBlank byte = true
  exhausted : word = [] → rest = []

/-- What reading a word gives. -/
structure WordAnswer (word : List UInt8) (answer : Except Fault Answer) : Prop where
  given : ∀ text, answer = .ok (.text text) ↔ word ≠ [] ∧ Utf8.encode text.toList = word
  malformed : (∃ cause, answer = .error (.badToken cause)) ↔
    word ≠ [] ∧ ∀ text, Utf8.encode text ≠ word

/-- What reading a number gives. -/
structure NumberAnswer (word : List UInt8) (answer : Except Fault Answer) : Prop where
  given : ∀ value, answer = .ok (.number value) ↔
    ∃ numeral : Decimal.Numeral, Utf8.encode numeral.spelling = word ∧ numeral.value = value ∧
      Word.Fits value
  rejected : ∀ text, answer = .error (.badNumber text) ↔
    word ≠ [] ∧ Utf8.encode text.toList = word ∧
      ∀ numeral : Decimal.Numeral, numeral.spelling = text.toList → ¬Word.Fits numeral.value
  malformed : (∃ cause, answer = .error (.badToken cause)) ↔
    word ≠ [] ∧ ∀ text, Utf8.encode text ≠ word

/-- A piece of input is a line: it ends with its only line feed, or the input
ends without one. -/
inductive IsLine : List UInt8 → List UInt8 → Prop where
  | closed {body rest : List UInt8} (inside : ∀ byte ∈ body, byte ≠ 0x0A) :
    IsLine (body ++ [0x0A]) rest
  | last {piece : List UInt8} (inside : ∀ byte ∈ piece, byte ≠ 0x0A) : IsLine piece []

/-- What reading a line gives: its text without the line feeds and carriage
returns at the end. -/
structure LineAnswer (piece : List UInt8) (answer : Except Fault Answer) : Prop where
  given : ∀ text, answer = .ok (.text text) ↔
    piece ≠ [] ∧ ∃ ends, Utf8.encode (text.toList ++ ends) = piece ∧
      (∀ char ∈ ends, char = '\n' ∨ char = '\r') ∧
      ∀ char ∈ text.toList.getLast?, char ≠ '\n' ∧ char ≠ '\r'
  malformed : answer = .error .badLine ↔ piece ≠ [] ∧ ∀ text, Utf8.encode text ≠ piece

/-- A request takes a piece of the input, which is followed by the rest, and
gives an answer. The input has ended when only white space is left for a word or
a number, and nothing for a line. -/
inductive Reads : Request → List UInt8 → List UInt8 → Except Fault Answer → Prop where
  | word {gap word rest : List UInt8} {answer : Except Fault Answer}
    (divides : Divides gap word rest) (answers : WordAnswer word answer)
    (ended : answer = .error .endOfInput ↔ ∀ byte ∈ gap ++ word ++ rest, isBlank byte = true) :
    Reads .word (gap ++ word) rest answer
  | number {gap word rest : List UInt8} {answer : Except Fault Answer}
    (divides : Divides gap word rest) (answers : NumberAnswer word answer)
    (ended : answer = .error .endOfInput ↔ ∀ byte ∈ gap ++ word ++ rest, isBlank byte = true) :
    Reads .number (gap ++ word) rest answer
  | line {piece rest : List UInt8} {answer : Except Fault Answer}
    (isLine : IsLine piece rest) (answers : LineAnswer piece answer)
    (ended : answer = .error .endOfInput ↔ piece ++ rest = []) :
    Reads .line piece rest answer

/-- Requests are answered one after another with the pieces that they take, and
leave the last of the input. -/
inductive Transcript : List UInt8 → List Request → List (List UInt8) →
    List (Except Fault Answer) → List UInt8 → Prop where
  | nil {input : List UInt8} : Transcript input [] [] [] input
  | cons {request : Request} {requests : List Request} {piece rest final : List UInt8}
    {pieces : List (List UInt8)} {answer : Except Fault Answer}
    {answers : List (Except Fault Answer)} (reads : Reads request piece rest answer)
    (later : Transcript rest requests pieces answers final) :
    Transcript (piece ++ rest) (request :: requests) (piece :: pieces) (answer :: answers) final

/-- The words of the input: what stands between white space. -/
def words (input : List UInt8) : List (List UInt8) :=
  (input.splitOnP isBlank).filter fun word => !word.isEmpty

/-- The pieces of a transcript and what is left make up the input. -/
theorem Transcript.flatten {input final : List UInt8} {requests : List Request}
    {pieces : List (List UInt8)} {answers : List (Except Fault Answer)}
    (transcript : Transcript input requests pieces answers final) :
    pieces.flatten ++ final = input := by
  induction transcript with
  | nil => rfl
  | cons reads later hypothesis => rw [List.flatten_cons, List.append_assoc, hypothesis]

section Words

variable {gap word rest : List UInt8}

/-- Blanks, a word and the rest make up the input. -/
theorem takeWhile_append_token (input : List UInt8) :
    input.takeWhile isBlank ++ token input ++ afterToken input = input := by
  rw [List.append_assoc, token, afterToken, List.takeWhile_append_dropWhile,
    List.takeWhile_append_dropWhile]

/-- What is left after the longest run of items of one kind begins with another. -/
theorem head_dropWhile {α : Type} (holds : α → Bool) (items : List α) :
    ∀ item ∈ (items.dropWhile holds).head?, holds item = false := by
  intro item first
  have stops := List.head?_dropWhile_not holds items
  rwa [first] at stops

/-- The word that is read stands between blanks. -/
theorem divides_token (input : List UInt8) :
    Divides (input.takeWhile isBlank) (token input) (afterToken input) where
  blank _ inside := List.mem_takeWhile_imp inside
  solid _ inside := by simpa using List.mem_takeWhile_imp inside
  boundary byte first := by simpa using head_dropWhile _ _ byte first
  exhausted none := by
    have starts := head_dropWhile isBlank input
    rw [token] at none
    rw [afterToken]
    cases remaining : input.dropWhile isBlank with
    | nil => rfl
    | cons byte bytes =>
      rw [remaining] at starts none
      simp [starts byte rfl] at none

/-- There is no word if and only if all is white space. -/
theorem Divides.eq_nil_iff (divides : Divides gap word rest) :
    word = [] ↔ ∀ byte ∈ gap ++ word ++ rest, isBlank byte = true := by
  constructor
  · intro none
    rw [divides.exhausted none, none, List.append_nil, List.append_nil]
    exact divides.blank
  · intro blank
    refine List.eq_nil_iff_forall_not_mem.mpr fun byte inside => ?_
    have solid := divides.solid byte inside
    rw [blank byte (by simp [inside])] at solid
    cases solid

/-- Bytes can be divided in one way only. -/
theorem Divides.token_eq (divides : Divides gap word rest) :
    token (gap ++ word ++ rest) = word ∧ afterToken (gap ++ word ++ rest) = rest := by
  have solid : ∀ byte ∈ word, (!isBlank byte) = true := by simpa using divides.solid
  have skipped : (gap ++ word ++ rest).dropWhile isBlank = word ++ rest := by
    rw [List.append_assoc, List.dropWhile_append_of_pos divides.blank]
    cases word with
    | nil => rw [divides.exhausted rfl]; rfl
    | cons byte bytes =>
      rw [List.cons_append, List.dropWhile_cons_of_neg]
      simp [divides.solid byte]
  rw [token, afterToken, skipped, List.takeWhile_append_of_pos solid,
    List.dropWhile_append_of_pos solid]
  cases rest with
  | nil => simp
  | cons byte bytes => simp [divides.boundary byte rfl]

/-- White space in front adds no words. -/
theorem words_append_of_blank (blank : ∀ byte ∈ gap, isBlank byte = true) (rest : List UInt8) :
    words (gap ++ rest) = words rest := by
  induction gap with
  | nil => rfl
  | cons byte bytes hypothesis =>
    rw [List.forall_mem_cons] at blank
    rw [← hypothesis blank.2, words, List.cons_append, List.splitOnP_cons_eq_if_modifyHead,
      if_pos blank.1]
    rfl

/-- The first word is followed by the words of the rest. -/
theorem Divides.words_eq (divides : Divides gap word rest) (nonempty : word ≠ []) :
    words (gap ++ word ++ rest) = word :: words rest := by
  rw [List.append_assoc, words_append_of_blank divides.blank]
  cases rest with
  | nil =>
    rw [List.append_nil, words, List.splitOnP_eq_singleton divides.solid]
    simp [words, nonempty]
  | cons byte bytes =>
    have blank := divides.boundary byte rfl
    have skipped := @words_append_of_blank [byte] (by simpa using blank) bytes
    rw [List.singleton_append] at skipped
    rw [skipped, words, List.splitOnP_append_cons_of_forall_mem divides.solid byte blank]
    simp [words, nonempty]

/-- The words of the input are the next one and those after it. -/
theorem words_cases (input : List UInt8) :
    token input = [] ∧ afterToken input = [] ∧ words input = [] ∨
      token input ≠ [] ∧ words input = token input :: words (afterToken input) := by
  have divides := divides_token input
  have whole := takeWhile_append_token input
  by_cases none : token input = []
  · have ended := divides.exhausted none
    refine .inl ⟨none, ended, ?_⟩
    rw [none, ended, List.append_nil] at whole
    rw [← whole, words_append_of_blank divides.blank]
    rfl
  · have split := divides.words_eq none
    rw [whole] at split
    exact .inr ⟨none, split⟩

end Words

section Answers

/-- What reading a word comes down to. -/
theorem readToken_cases (input : List UInt8) :
    token input = [] ∧ (readToken input).1 = .error .endOfInput ∨
      token input ≠ [] ∧
        ((∃ text, Utf8.encode text.toList = token input ∧ (readToken input).1 = .ok text) ∨
          (∀ text, Utf8.encode text ≠ token input) ∧
            ∃ cause, (readToken input).1 = .error (.badToken cause)) := by
  by_cases none : token input = []
  · exact .inl ⟨none, by simp [readToken, none]⟩
  · refine .inr ⟨none, ?_⟩
    cases decoded : Utf8.decode (token input) with
    | ok text =>
      refine .inl ⟨String.ofList text, ?_, ?_⟩
      · rw [String.toList_ofList]
        exact Utf8.decode_eq_ok_iff.mp decoded
      · simp [readToken, none, decoded]
    | error cause =>
      refine .inr ⟨Utf8.decode_error_iff.mp ⟨cause, decoded⟩, cause, ?_⟩
      simp [readToken, none, decoded]

/-- A word is the form of one text at most. -/
theorem encode_toList_inj {first second : String} :
    Utf8.encode first.toList = Utf8.encode second.toList ↔ first = second := by
  rw [Utf8.encode_inj, String.toList_inj]

/-- What reading a word answers. -/
theorem wordAnswer_readToken (input : List UInt8) :
    WordAnswer (token input) ((readToken input).1.map .text) := by
  rcases readToken_cases input with
    ⟨none, read⟩ | ⟨some, ⟨text, encoded, read⟩ | ⟨unknown, cause, read⟩⟩
  · rw [read, none]
    constructor <;> simp [Except.map]
  · rw [read, ← encoded]
    rw [← encoded] at some
    constructor
    · intro other
      simp only [Except.map, Except.ok.injEq, Answer.text.injEq, encode_toList_inj]
      exact ⟨fun same => ⟨some, same.symm⟩, fun both => both.2.symm⟩
    · simp [Except.map]
  · rw [read]
    constructor
    · simp [Except.map, unknown]
    · simp [Except.map, some, unknown]

/-- A number is read from the text of a word. -/
theorem readInt_of_readToken {input : List UInt8} {text : String}
    (read : (readToken input).1 = .ok text) :
    (readInt input).1 = match Decimal.word? text.toList with
      | some value => .ok value
      | none => .error (.badNumber text) := by
  simp only [readInt, read]
  rfl

/-- A number cannot be read if its word cannot. -/
theorem readInt_of_error {input : List UInt8} {fault : Fault}
    (failed : (readToken input).1 = .error fault) : (readInt input).1 = .error fault := by
  simp only [readInt, failed]
  rfl

/-- What reading a number answers. -/
theorem numberAnswer_readInt (input : List UInt8) :
    NumberAnswer (token input) ((readInt input).1.map .number) := by
  rcases readToken_cases input with
    ⟨none, read⟩ | ⟨some, ⟨text, encoded, read⟩ | ⟨unknown, cause, read⟩⟩
  · rw [readInt_of_error read, none]
    constructor
    · simp [Except.map, Utf8.encode_eq_nil_iff, Decimal.spelling_ne_nil]
    · simp [Except.map]
    · simp [Except.map]
  · rw [readInt_of_readToken read, ← encoded]
    rw [← encoded] at some
    have reads (value : Int) := @Decimal.word?_eq_some_iff text.toList value
    constructor
    · intro value
      simp only [Utf8.encode_inj, ← reads]
      cases Decimal.word? text.toList <;> simp [Except.map]
    · intro other
      rw [encode_toList_inj, and_iff_right some]
      cases found : Decimal.word? text.toList with
      | none =>
        have unfit : ∀ numeral : Decimal.Numeral, numeral.spelling = text.toList →
            ¬Word.Fits numeral.value := by
          intro numeral spelled fits
          cases found.symm.trans ((reads numeral.value).mpr ⟨numeral, spelled, rfl, fits⟩)
        constructor
        · rintro ⟨⟩
          exact ⟨rfl, unfit⟩
        · rintro ⟨rfl, -⟩
          rfl
      | some value =>
        obtain ⟨numeral, spelled, rfl, fits⟩ := (reads value).mp found
        constructor
        · intro failed
          cases failed
        · rintro ⟨rfl, unfit⟩
          exact absurd fits (unfit numeral spelled)
    · cases Decimal.word? text.toList <;> simp [Except.map]
  · rw [readInt_of_error read]
    constructor
    · simp [Except.map, unknown]
    · simp [Except.map, unknown]
    · simp [Except.map, some, unknown]

/-- The input ends where there is no other word, whatever is made of one. -/
theorem ended_iff (input : List UInt8) :
    ((readToken input).1.map Answer.text = .error .endOfInput ↔ token input = []) ∧
      ((readInt input).1.map Answer.number = .error .endOfInput ↔ token input = []) := by
  rcases readToken_cases input with
    ⟨none, read⟩ | ⟨some, ⟨text, -, read⟩ | ⟨-, cause, read⟩⟩
  · simp [read, readInt_of_error read, none, Except.map]
  · rw [readInt_of_readToken read, read]
    cases Decimal.word? text.toList <;> simp [some, Except.map]
  · simp [read, readInt_of_error read, some, Except.map]

section Lines

/-- A line and the rest make up the input. -/
theorem line_append_afterLine (input : List UInt8) : line input ++ afterLine input = input := by
  rw [line, afterLine, List.append_assoc, List.take_append_drop, List.takeWhile_append_dropWhile]

/-- The line that is read ends where a line does. -/
theorem isLine_line (input : List UInt8) : IsLine (line input) (afterLine input) := by
  have inside : ∀ byte ∈ input.takeWhile fun byte => byte != 0x0A, byte ≠ 0x0A := by
    intro byte member
    simpa using List.mem_takeWhile_imp member
  have stops := head_dropWhile (fun byte => byte != 0x0A) input
  rw [line, afterLine]
  cases remaining : input.dropWhile fun byte => byte != 0x0A with
  | nil =>
    rw [List.take_nil, List.append_nil, List.drop_nil]
    exact .last inside
  | cons byte bytes =>
    rw [remaining] at stops
    obtain rfl : byte = 0x0A := by simpa using stops byte rfl
    exact .closed inside

/-- There is no line exactly if there is no input. -/
theorem line_eq_nil_iff {input : List UInt8} : line input = [] ↔ input = [] := by
  cases input with
  | nil => simp [line]
  | cons byte bytes => by_cases same : byte = 0x0A <;> simp [line, same]

/-- The characters that are taken off the end of a line. -/
theorem isLineEnd_iff {char : Char} : isLineEnd char = true ↔ char = '\n' ∨ char = '\r' := by
  simp [isLineEnd]

/-- A text without line ends at its end is what is left of it with any line ends
there. -/
theorem trimLine_eq_iff {whole text : List Char} :
    trimLine whole = text ↔
      ∃ ends, text ++ ends = whole ∧ (∀ char ∈ ends, char = '\n' ∨ char = '\r') ∧
        ∀ char ∈ text.getLast?, char ≠ '\n' ∧ char ≠ '\r' := by
  simp only [← isLineEnd_iff, ← not_or, Bool.not_eq_true]
  rw [trimLine]
  constructor
  · rintro rfl
    refine ⟨(whole.reverse.takeWhile isLineEnd).reverse, ?_, ?_, ?_⟩
    · rw [← List.reverse_append, List.takeWhile_append_dropWhile, List.reverse_reverse]
    · intro char inside
      exact List.mem_takeWhile_imp (List.mem_reverse.mp inside)
    · intro char last
      rw [List.getLast?_reverse] at last
      exact head_dropWhile _ _ char last
  · rintro ⟨ends, rfl, trimmed, stops⟩
    rw [List.reverse_append, List.dropWhile_append_of_pos (by simpa using trimmed)]
    cases backward : text.reverse with
    | nil => simpa using backward
    | cons char chars =>
      rw [List.dropWhile_cons_of_neg, ← backward, List.reverse_reverse]
      rw [stops char]
      · simp
      · rw [← List.head?_reverse, backward]
        rfl

/-- What reading a line answers. -/
theorem lineAnswer_readLine (input : List UInt8) :
    LineAnswer (line input) ((readLine input).1.map fun line => .text (String.ofList line)) := by
  by_cases none : input = []
  · subst none
    constructor <;> simp [readLine, line, Except.map]
  have some : line input ≠ [] := fun empty => none (line_eq_nil_iff.mp empty)
  cases decoded : Utf8.decode (line input) with
  | error cause =>
    have unknown := Utf8.decode_error_iff.mp ⟨cause, decoded⟩
    constructor <;> simp [readLine, none, some, decoded, unknown, Except.map]
  | ok whole =>
    have encoded := Utf8.decode_eq_ok_iff.mp decoded
    constructor
    · intro text
      rw [and_iff_right some]
      simp only [← encoded, Utf8.encode_inj, ← trimLine_eq_iff]
      simp [readLine, none, decoded, Except.map, ← String.toList_inj]
    · refine ⟨fun failed => ?_, fun both => absurd encoded (both.2 whole)⟩
      simp [readLine, none, decoded, Except.map] at failed

end Lines

end Answers

/-- Every request takes a piece from the front of the input. -/
theorem reads_perform (request : Request) (input : List UInt8) :
    ∃ piece, piece ++ (request.perform input).2 = input ∧
      Reads request piece (request.perform input).2 (request.perform input).1 := by
  have divides := divides_token input
  obtain ⟨noWord, noNumber⟩ := ended_iff input
  cases request with
  | word =>
    refine ⟨_, takeWhile_append_token input, .word divides (wordAnswer_readToken input) ?_⟩
    exact noWord.trans divides.eq_nil_iff
  | number =>
    refine ⟨_, takeWhile_append_token input, .number divides (numberAnswer_readInt input) ?_⟩
    exact noNumber.trans divides.eq_nil_iff
  | line =>
    refine ⟨_, line_append_afterLine input,
      .line (isLine_line input) (lineAnswer_readLine input) ?_⟩
    rw [show (Request.line.perform input).2 = afterLine input from rfl, line_append_afterLine]
    by_cases none : input = []
    · simp [Request.perform, readLine, none, Except.map]
    · cases decoded : Utf8.decode (line input) <;>
        simp [Request.perform, readLine, none, decoded, Except.map]

/-- Requests that are carried out one after another have a transcript. -/
theorem exists_transcript (requests : List Request) (input : List UInt8) :
    ∃ pieces, Transcript input requests pieces (performAll requests input).1
      (performAll requests input).2 := by
  induction requests generalizing input with
  | nil => exact ⟨[], .nil⟩
  | cons request requests hypothesis =>
    obtain ⟨piece, whole, reads⟩ := reads_perform request input
    obtain ⟨pieces, later⟩ := hypothesis (request.perform input).2
    refine ⟨piece :: pieces, ?_⟩
    have transcript := Transcript.cons reads later
    rwa [whole] at transcript

/-- Reading words until the input ends gives the words of the input. -/
theorem performAll_words (input : List UInt8) :
    ∃ answers,
      performAll (List.replicate ((words input).length + 1) .word) input =
        (answers ++ [.error .endOfInput], []) ∧
      List.Forall₂ (fun word answer => word ≠ [] ∧ WordAnswer word answer) (words input)
        answers := by
  induction split : words input generalizing input with
  | nil =>
    rcases words_cases input with ⟨none, rest, -⟩ | ⟨-, more⟩
    · have answer : Request.word.perform input = (.error .endOfInput, []) :=
        Prod.ext ((ended_iff input).1.mpr none) rest
      refine ⟨[], ?_, .nil⟩
      simp [performAll, answer]
    · cases split.symm.trans more
  | cons word others hypothesis =>
    rcases words_cases input with ⟨-, -, none⟩ | ⟨some, more⟩
    · cases split.symm.trans none
    · obtain ⟨rfl, rfl⟩ := List.cons.inj (split.symm.trans more)
      obtain ⟨answers, performed, answered⟩ := hypothesis (afterToken input) rfl
      have rest : (Request.word.perform input).2 = afterToken input := rfl
      refine ⟨(Request.word.perform input).1 :: answers, ?_,
        .cons ⟨some, wordAnswer_readToken input⟩ answered⟩
      rw [List.length_cons, List.replicate_succ, performAll_cons, rest, performed]
      rfl

end ScopeStack.Input

namespace ScopeStack

open Input

/-- Reading the input loses and duplicates nothing. Requests in any order take
pieces from the front of what is left, and the pieces followed by the rest are
the input. A word or a number takes white space and the longest run of other
bytes after it; the input has ended if there is only white space, which is
taken. A line takes all up to a line feed or to the end; the input has ended if
nothing is left. What is not UTF-8 or not a numeral is taken as well. So reading
words until the input ends gives the words of the input in their order. -/
theorem reading_loses_nothing (input : List UInt8) (requests : List Request) :
    (∃ pieces,
      Transcript input requests pieces (performAll requests input).1 (performAll requests input).2 ∧
        pieces.flatten ++ (performAll requests input).2 = input) ∧
    ∃ answers,
      performAll (List.replicate ((words input).length + 1) .word) input =
        (answers ++ [.error .endOfInput], []) ∧
      List.Forall₂ (fun word answer => word ≠ [] ∧ WordAnswer word answer) (words input)
        answers := by
  obtain ⟨pieces, transcript⟩ := exists_transcript requests input
  exact ⟨⟨pieces, transcript, transcript.flatten⟩, performAll_words input⟩

end ScopeStack
