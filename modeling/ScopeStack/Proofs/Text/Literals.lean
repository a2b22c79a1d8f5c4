import Mathlib.Data.List.Basic
import ScopeStack.Builder
import ScopeStack.Proofs.Text.Numerals
import ScopeStack.Proofs.Words

/-!
# The grammar of constants

Between its quotes a constant is a sequence of items, each of which stands for
one code. `readers_follow_grammar` says that the readers of constants accept
exactly what can be put together from items and numerals, and that no constant
can be put together in two ways: an item shows with its first characters which
kind it is and where it ends.

What is written for a character is an item that stands for its code, so
constants that have been written can be read: `constants_read_back`.
-/

namespace ScopeStack

namespace Hexadecimal

/-- A hexadecimal digit of either case. -/
inductive Digit where
  | decimal (value : Fin 10)
  | lower (excess : Fin 6)
  | upper (excess : Fin 6)
deriving DecidableEq, Repr

/-- A digit as it is written. -/
def Digit.char : Digit → Char
  | .decimal value => Char.ofNat ('0'.toNat + value)
  | .lower excess => Char.ofNat ('a'.toNat + excess)
  | .upper excess => Char.ofNat ('A'.toNat + excess)

/-- The value of a digit. -/
def Digit.value : Digit → Nat
  | .decimal value => value
  | .lower excess => 10 + excess
  | .upper excess => 10 + excess

/-- A property of the characters of digits is decided by looking at all. -/
theorem Digit.forall_of_ranges {property : Digit → Prop}
    (decimal : ∀ value, property (.decimal value))
    (lower : ∀ excess, property (.lower excess)) (upper : ∀ excess, property (.upper excess)) :
    ∀ digit, property digit
  | .decimal value => decimal value
  | .lower excess => lower excess
  | .upper excess => upper excess

/-- A digit has the value that it spells. -/
theorem value?_char : ∀ digit : Digit, value? digit.char = some digit.value :=
  Digit.forall_of_ranges (by decide) (by decide) (by decide)

/-- A character in a range of digits is the digit at its place in the range. -/
theorem exists_place {first last char : Char} (low : first ≤ char) (high : char ≤ last)
    {width : Nat} (wide : last.toNat < first.toNat + width) :
    ∃ place : Fin width, Char.ofNat (first.toNat + place) = char ∧
      char.toNat - first.toNat = place := by
  have lowest : first.toNat ≤ char.toNat := low
  have highest : char.toNat ≤ last.toNat := high
  have inside : char.toNat - first.toNat < width := by omega
  refine ⟨⟨char.toNat - first.toNat, inside⟩, ?_, rfl⟩
  dsimp only
  rw [Nat.add_sub_cancel' lowest, Char.ofNat_toNat]

/-- The characters that have a value are those of digits. -/
theorem value?_eq_some_iff {char : Char} {number : Nat} :
    value? char = some number ↔ ∃ digit : Digit, digit.char = char ∧ digit.value = number := by
  constructor
  · intro found
    rw [value?] at found
    split at found
    next range =>
      cases found
      obtain ⟨place, rfl, same⟩ := exists_place range.1 range.2
        (show '9'.toNat < '0'.toNat + 10 by decide)
      exact ⟨.decimal place, rfl, same.symm⟩
    next =>
      split at found
      next range =>
        cases found
        obtain ⟨place, rfl, same⟩ :=
          exists_place range.1 range.2 (show 'f'.toNat < 'a'.toNat + 6 by decide)
        exact ⟨.lower place, rfl, by rw [same, Digit.value, Nat.add_comm]⟩
      next =>
        split at found
        next range =>
          cases found
          obtain ⟨place, rfl, same⟩ :=
            exists_place range.1 range.2 (show 'F'.toNat < 'A'.toNat + 6 by decide)
          exact ⟨.upper place, rfl, by rw [same, Digit.value, Nat.add_comm]⟩
        next => cases found
  · rintro ⟨digit, rfl, rfl⟩
    exact value?_char digit

/-- Different digits are written differently. -/
theorem Digit.char_injective : Function.Injective Digit.char := by
  have different : ∀ first second : Digit, first.char = second.char → first = second := by
    apply Digit.forall_of_ranges
    all_goals
      intro place
      apply Digit.forall_of_ranges <;> revert place <;> decide
  exact fun first second => different first second

end Hexadecimal

namespace Literal

/-- The quotes around a constant. -/
inductive Mark where
  | single
  | double
deriving DecidableEq, Repr

/-- A quote as it is written. -/
def Mark.char : Mark → Char
  | .single => '\''
  | .double => '"'

/-- What stands for one code between quotes. -/
inductive Item (mark : Mark) where
  /-- A character that stands for itself. -/
  | plain (char : Char) (ordinary : char ≠ mark.char ∧ char ≠ '\\')
  | lineBreak
  | backslash
  | quote
  /-- A code of two hexadecimal digits. -/
  | numbered (high low : Hexadecimal.Digit)
deriving DecidableEq, Repr

namespace Item

variable {mark : Mark}

/-- An item as it is written. -/
def spelling : Item mark → List Char
  | .plain char _ => [char]
  | .lineBreak => ['\\', 'n']
  | .backslash => ['\\', '\\']
  | .quote => ['\\', mark.char]
  | .numbered high low => ['\\', high.char, low.char]

/-- The code that an item stands for. -/
def code : Item mark → Nat
  | .plain char _ => char.toNat
  | .lineBreak => '\n'.toNat
  | .backslash => '\\'.toNat
  | .quote => mark.char.toNat
  | .numbered high low => high.value * 16 + low.value

end Item

/-- Items between quotes. -/
def enclose (mark : Mark) (items : List (Item mark)) : List Char :=
  mark.char :: items.flatMap Item.spelling ++ [mark.char]

/-- No escape begins like another: a digit is neither a backslash nor a letter
or quote that may follow one. -/
theorem digit_ne (mark : Mark) (digit : Hexadecimal.Digit) :
    digit.char ≠ 'n' ∧ digit.char ≠ '\\' ∧ digit.char ≠ mark.char := by
  revert digit
  cases mark
  all_goals
    apply Hexadecimal.Digit.forall_of_ranges <;> decide

/-- A quotation mark is neither the letter of an escape nor a backslash. -/
theorem mark_ne (mark : Mark) : mark.char ≠ 'n' ∧ mark.char ≠ '\\' := by
  cases mark <;> decide

section Codes

variable {mark : Mark}

/-- Reading takes one item after another. -/
theorem codes?_spelling_append (item : Item mark) (rest : List Char) :
    codes? mark.char (item.spelling ++ rest) = (codes? mark.char rest).map (item.code :: ·) := by
  cases item with
  | plain char ordinary =>
    change codes? mark.char (char :: rest) = _
    rw [codes?, if_neg (by simpa using ordinary)]
    · rfl
    all_goals
      intros
      exact ordinary.2 ‹_›
  | lineBreak => exact codes?.eq_2 _ _
  | backslash => exact codes?.eq_3 _ _
  | quote =>
    have distinct := mark_ne mark
    change codes? mark.char ('\\' :: mark.char :: rest) = _
    cases rest with
    | nil => rw [codes?.eq_5 _ _ distinct.1 distinct.2, if_pos rfl]; rfl
    | cons low after => rw [codes?.eq_4 _ _ _ _ distinct.1 distinct.2, if_pos rfl]; rfl
  | numbered high low =>
    obtain ⟨letter, backslash, quote⟩ := digit_ne mark high
    change codes? mark.char ('\\' :: high.char :: low.char :: rest) = _
    rw [codes?.eq_4 _ _ _ _ letter backslash, if_neg quote, Hexadecimal.value?_char,
      Hexadecimal.value?_char]
    rfl

/-- Items are read as their codes. -/
theorem codes?_flatMap_spelling (items : List (Item mark)) :
    codes? mark.char (items.flatMap Item.spelling) = some (items.map Item.code) := by
  induction items with
  | nil => rfl
  | cons item rest hypothesis =>
    rw [List.flatMap_cons, codes?_spelling_append, hypothesis, Option.map_some, List.map_cons]

/-- Characters that can be read are put together from items. -/
theorem exists_items_of_codes? {chars : List Char} {codes : List Nat}
    (reads : codes? mark.char chars = some codes) :
    ∃ items : List (Item mark),
      items.flatMap Item.spelling = chars ∧ items.map Item.code = codes := by
  -- An item in front of what has been put together already.
  have extend (item : Item mark) {rest : List Char} {codes : List Nat}
      (found : (codes? mark.char rest).map (item.code :: ·) = some codes)
      (hypothesis : ∀ {codes}, codes? mark.char rest = some codes →
        ∃ items : List (Item mark), items.flatMap Item.spelling = rest ∧
          items.map Item.code = codes) :
      ∃ items : List (Item mark), items.flatMap Item.spelling = item.spelling ++ rest ∧
        items.map Item.code = codes := by
    obtain ⟨later, read, rfl⟩ := Option.map_eq_some_iff.mp found
    obtain ⟨items, rfl, rfl⟩ := hypothesis read
    exact ⟨item :: items, List.flatMap_cons, rfl⟩
  induction chars using codes?.induct mark.char generalizing codes with
  | case1 =>
    cases reads
    exact ⟨[], rfl, rfl⟩
  | case2 rest hypothesis => exact extend .lineBreak reads hypothesis
  | case3 rest hypothesis => exact extend .backslash reads hypothesis
  | case4 rest letter backslash hypothesis =>
    rw [show '\\' :: mark.char :: rest = (Item.quote : Item mark).spelling ++ rest from rfl,
      codes?_spelling_append] at reads
    exact extend .quote reads hypothesis
  | case5 high letter backslash quote low after upper lower lowFound highFound hypothesis =>
    obtain ⟨first, rfl, rfl⟩ := Hexadecimal.value?_eq_some_iff.mp highFound
    obtain ⟨second, rfl, rfl⟩ := Hexadecimal.value?_eq_some_iff.mp lowFound
    rw [show '\\' :: first.char :: second.char :: after =
      (Item.numbered first second : Item mark).spelling ++ after from rfl,
      codes?_spelling_append] at reads
    exact extend (.numbered first second) reads hypothesis
  | case6 high letter backslash quote low after undefined =>
    rw [codes?.eq_4 _ _ _ _ letter backslash, if_neg quote] at reads
    split at reads
    next upper lower highFound lowFound => exact (undefined upper lower highFound lowFound).elim
    next => cases reads
  | case7 high letter backslash quote =>
    rw [codes?.eq_5 _ _ letter backslash, if_neg quote] at reads
    cases reads
  | case8 char rest notBreak notBackslash notEscape special =>
    rw [codes?.eq_6 _ _ _ notBreak notBackslash notEscape, if_pos special] at reads
    cases reads
  | case9 char rest notBreak notBackslash notEscape ordinary hypothesis =>
    rw [codes?.eq_6 _ _ _ notBreak notBackslash notEscape, if_neg ordinary] at reads
    exact extend (.plain char (not_or.mp ordinary)) reads hypothesis

/-- Which item comes first, and where it ends, can be seen without knowing what
follows it. -/
theorem spelling_append_injective {first second : Item mark} {rest other : List Char}
    (same : first.spelling ++ rest = second.spelling ++ other) : first = second ∧ rest = other := by
  have markNe := mark_ne mark
  have digitNe := digit_ne mark
  cases first <;> cases second <;>
    simp only [Item.spelling, List.cons_append, List.nil_append, List.cons.injEq, true_and] at same
  case plain.plain =>
    obtain ⟨rfl, later⟩ := same
    exact ⟨rfl, later⟩
  case numbered.numbered =>
    obtain ⟨high, low, later⟩ := same
    rw [Hexadecimal.Digit.char_injective high, Hexadecimal.Digit.char_injective low]
    exact ⟨rfl, later⟩
  -- Items of different kinds differ in the first character or in the one after a backslash.
  all_goals grind

/-- A constant can be put together in one way only. -/
theorem enclose_injective (mark : Mark) : Function.Injective (enclose mark) := by
  have unique (first second : List (Item mark))
      (same : first.flatMap Item.spelling = second.flatMap Item.spelling) : first = second := by
    induction first generalizing second with
    | nil =>
      cases second with
      | nil => rfl
      | cons item rest => cases item <;> cases same
    | cons item rest hypothesis =>
      cases second with
      | nil => cases item <;> cases same
      | cons other later =>
        rw [List.flatMap_cons, List.flatMap_cons] at same
        obtain ⟨rfl, remaining⟩ := spelling_append_injective same
        rw [hypothesis later remaining]
  intro first second same
  exact unique first second (List.append_cancel_right (List.cons.inj same).2)

/-- Quotes are taken off at both ends. -/
theorem unquote?_eq_some_iff {quote : Char} {lexeme body : List Char} :
    unquote? quote lexeme = some body ↔ lexeme = quote :: body ++ [quote] := by
  cases lexeme with
  | nil => simp [unquote?]
  | cons first rest =>
    rw [unquote?, List.cons_append, List.cons.injEq]
    constructor
    · intro found
      split at found
      next marked =>
        cases found
        exact ⟨marked.1, (List.dropLast_append_getLast? quote marked.2).symm⟩
      next => cases found
    · rintro ⟨rfl, rfl⟩
      simp

/-- A lexeme is read as a constant in quotes if items can be put together to
it. -/
theorem quoted?_eq_some_iff (mark : Mark) {lexeme : List Char} {codes : List Nat} :
    quoted? mark.char lexeme = some codes ↔
      ∃ items, enclose mark items = lexeme ∧ items.map Item.code = codes := by
  rw [quoted?, Option.bind_eq_some_iff]
  constructor
  · rintro ⟨body, unquoted, reads⟩
    obtain ⟨items, rfl, rfl⟩ := exists_items_of_codes? reads
    exact ⟨items, (unquote?_eq_some_iff.mp unquoted).symm, rfl⟩
  · rintro ⟨items, rfl, rfl⟩
    exact ⟨_, unquote?_eq_some_iff.mpr rfl, codes?_flatMap_spelling items⟩

/-- What is written for a character is an item that stands for its code. -/
theorem exists_item_of_escape (mark : Mark) (char : Char) :
    ∃ item : Item mark, item.spelling = escape mark.char char ∧ item.code = char.toNat := by
  have digitOf (value : Nat) (small : value < 16) :
      ∃ digit : Hexadecimal.Digit, digit.char = Hexadecimal.digit value ∧ digit.value = value :=
    Hexadecimal.value?_eq_some_iff.mp (Hexadecimal.value?_digit small)
  rw [escape]
  split
  next same =>
    subst same
    exact ⟨.lineBreak, rfl, rfl⟩
  next =>
    split
    next same =>
      subst same
      exact ⟨.backslash, rfl, rfl⟩
    next notBackslash =>
      split
      next same =>
        subst same
        exact ⟨.quote, rfl, rfl⟩
      next notQuote =>
        split
        next control =>
          obtain ⟨high, highChar, highValue⟩ := digitOf (char.toNat / 16) (by omega)
          obtain ⟨low, lowChar, lowValue⟩ := digitOf (char.toNat % 16) (by omega)
          refine ⟨.numbered high low, ?_, ?_⟩
          · rw [Item.spelling, highChar, lowChar]
          · rw [Item.code, highValue, lowValue]
            omega
        next => exact ⟨.plain char ⟨notQuote, notBackslash⟩, rfl, rfl⟩

/-- An escaped text is the spelling of items with the codes of its characters. -/
theorem exists_items_of_escape (mark : Mark) (text : List Char) :
    ∃ items : List (Item mark), items.flatMap Item.spelling = text.flatMap (escape mark.char) ∧
      items.map Item.code = text.map Char.toNat := by
  induction text with
  | nil => exact ⟨[], rfl, rfl⟩
  | cons char rest hypothesis =>
    obtain ⟨item, spelled, stands⟩ := exists_item_of_escape mark char
    obtain ⟨items, spelledRest, standsRest⟩ := hypothesis
    refine ⟨item :: items, ?_, ?_⟩
    · rw [List.flatMap_cons, List.flatMap_cons, spelled, spelledRest]
    · rw [List.map_cons, List.map_cons, stands, standsRest]

/-- Between quotes, what has been escaped is read as it was. -/
theorem codes?_escape (mark : Mark) (text : List Char) :
    codes? mark.char (text.flatMap (escape mark.char)) = some (text.map Char.toNat) := by
  obtain ⟨items, spelled, stands⟩ := exists_items_of_escape mark text
  rw [← spelled, ← stands]
  exact codes?_flatMap_spelling items

/-- A text in quotation marks is read back. -/
theorem quoted?_quote (mark : Mark) (text : List Char) :
    quoted? mark.char (quote mark.char text).toList = some (text.map Char.toNat) := by
  have unquoted : unquote? mark.char (quote mark.char text).toList =
      some (text.flatMap (escape mark.char)) := by
    rw [quote, String.toList_ofList]
    exact unquote?_eq_some_iff.mpr rfl
  rw [quoted?, unquoted, Option.bind_some, codes?_escape]

end Codes

/-- The lexeme is the numeral of a word. -/
def DenotesInt (lexeme : String) (value : Int) : Prop :=
  ∃ numeral : Decimal.Numeral, numeral.spelling = lexeme.toList ∧ numeral.value = value ∧
    Word.Fits value

/-- The lexeme consists of items in double quotes, which stand for the codes. -/
def DenotesText (lexeme : String) (codes : List Int) : Prop :=
  ∃ items : List (Item .double), enclose .double items = lexeme.toList ∧
    items.map (fun item => (item.code : Int)) = codes

/-- The lexeme consists of one item in single quotes, which stands for the
code. -/
def DenotesChar (lexeme : String) (code : Int) : Prop :=
  ∃ item : Item .single, enclose .single [item] = lexeme.toList ∧ item.code = code

section Readers

variable {lexeme : String}

/-- A lexeme is read as a number if it denotes it. -/
theorem readInt_eq_ok_iff {value : Int} : readInt lexeme = .ok value ↔ DenotesInt lexeme value := by
  rw [readInt, DenotesInt, ← Decimal.word?_eq_some_iff]
  cases Decimal.word? lexeme.toList <;> simp

/-- A lexeme is read as a text if it denotes it. -/
theorem readText_eq_ok_iff {codes : List Int} :
    readText lexeme = .ok codes ↔ DenotesText lexeme codes := by
  rw [readText]
  constructor
  · intro reads
    split at reads
    next found =>
      obtain ⟨items, enclosed, rfl⟩ := (quoted?_eq_some_iff .double).mp found
      cases reads
      exact ⟨items, enclosed, by rw [List.map_map]; rfl⟩
    next => cases reads
  · rintro ⟨items, enclosed, rfl⟩
    have found : quoted? '"' lexeme.toList = some (items.map Item.code) :=
      (quoted?_eq_some_iff .double).mpr ⟨items, enclosed, rfl⟩
    rw [found]
    simp

/-- A lexeme is read as a character if it denotes it. -/
theorem readChar_eq_ok_iff {code : Int} : readChar lexeme = .ok code ↔ DenotesChar lexeme code := by
  rw [readChar]
  constructor
  · intro reads
    split at reads
    next found =>
      obtain ⟨items, enclosed, codes⟩ := (quoted?_eq_some_iff .single).mp found
      obtain ⟨item, rfl, rfl⟩ := List.map_eq_singleton_iff.mp codes
      cases reads
      exact ⟨item, enclosed, rfl⟩
    next => cases reads
  · rintro ⟨item, enclosed, rfl⟩
    have found : quoted? '\'' lexeme.toList = some [item.code] :=
      (quoted?_eq_some_iff .single).mpr ⟨[item], enclosed, rfl⟩
    rw [found]

/-- A reader with one kind of error fails exactly on what denotes nothing. -/
theorem eq_error_iff {α : Type} {result : Except LiteralError α} {error : LiteralError}
    {denotes : α → Prop} (ok_iff : ∀ value, result = .ok value ↔ denotes value)
    (only : ∀ other, result = .error other → other = error) :
    result = .error error ↔ ∀ value, ¬denotes value := by
  cases result with
  | ok value =>
    have denoted : denotes value := (ok_iff value).mp rfl
    constructor
    · intro failed
      cases failed
    · intro nothing
      exact absurd denoted (nothing value)
  | error other =>
    rw [only other rfl]
    constructor
    · intro _ value denoted
      cases (ok_iff value).mpr denoted
    · exact fun _ => rfl

/-- A text that has been written is read as it was. -/
theorem readText_ofText (text : String) :
    readText (ofText text) = .ok (text.toList.map fun char => (char.toNat : Int)) := by
  have found : quoted? '"' (ofText text).toList = some (text.toList.map Char.toNat) :=
    quoted?_quote .double text.toList
  rw [readText, found]
  simp

end Readers

end Literal

open Literal

/-- The readers of constants accept exactly the spellings of numerals that are
words, of items in double quotes and of one item in single quotes, and give
what these stand for. They reject every other lexeme and say which one it is.
The items of a constant are determined by its spelling. -/
theorem readers_follow_grammar (lexeme : String) :
    (∀ value, readInt lexeme = .ok value ↔ DenotesInt lexeme value) ∧
      (∀ codes, readText lexeme = .ok codes ↔ DenotesText lexeme codes) ∧
      (∀ code, readChar lexeme = .ok code ↔ DenotesChar lexeme code) ∧
      (readInt lexeme = .error (.integer lexeme) ↔ ∀ value, ¬DenotesInt lexeme value) ∧
      (readText lexeme = .error (.text lexeme) ↔ ∀ codes, ¬DenotesText lexeme codes) ∧
      (readChar lexeme = .error (.character lexeme) ↔ ∀ code, ¬DenotesChar lexeme code) ∧
      ∀ mark, Function.Injective (enclose mark) := by
  refine ⟨fun _ => readInt_eq_ok_iff, fun _ => readText_eq_ok_iff, fun _ => readChar_eq_ok_iff,
    eq_error_iff (fun _ => readInt_eq_ok_iff) ?_, eq_error_iff (fun _ => readText_eq_ok_iff) ?_,
    eq_error_iff (fun _ => readChar_eq_ok_iff) ?_, enclose_injective⟩
  · intro other failed
    rw [readInt] at failed
    split at failed <;> cases failed
    rfl
  · intro other failed
    rw [readText] at failed
    split at failed <;> cases failed
    rfl
  · intro other failed
    rw [readChar] at failed
    split at failed <;> cases failed
    rfl

/-- The last quote belongs to the escape before it, so the constant is not closed. -/
example : readText "\"a\\\"" = .error (.text "\"a\\\"") := by decide

/-- Constants that are built for a word, a character and a text can be read, and
stand for the word, the code of the character and the codes of the text. So
what has been escaped between quotes is read as it was. -/
theorem constants_read_back (word : Word) (char : Char) (text : String)
    (progress : Builder.Progress) :
    (∃ atom later, (Builder.intAtom word.toInt).run progress = .ok (atom, later) ∧
        atom.kind = .int ∧ readInt atom.lexeme = .ok word.toInt) ∧
      (∃ atom later, (Builder.charAtom char).run progress = .ok (atom, later) ∧
        atom.kind = .char ∧ readChar atom.lexeme = .ok char.toNat) ∧
      (∃ atom later, (Builder.textAtom text).run progress = .ok (atom, later) ∧
        atom.kind = .str ∧
        readText atom.lexeme = .ok (text.toList.map fun char => (char.toNat : Int))) ∧
      ∀ (mark : Mark) (chars : List Char),
        codes? mark.char (chars.flatMap (escape mark.char)) = some (chars.map Char.toNat) := by
  refine ⟨⟨_, _, rfl, rfl, ?_⟩, ⟨_, _, rfl, rfl, ?_⟩, ⟨_, _, rfl, rfl, ?_⟩, codes?_escape⟩
  · have found : Decimal.word? (ofInt word.toInt).toList = some word.toInt := by
      rw [ofInt, Decimal.text, String.toList_ofList, Decimal.word?_render word.fits_toInt]
    rw [readInt, found]
  · have found : quoted? '\'' (ofChar char).toList = some [char.toNat] :=
      quoted?_quote .single [char]
    rw [readChar, found]
  · exact readText_ofText text

end ScopeStack
