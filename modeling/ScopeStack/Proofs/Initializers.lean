import Mathlib.Data.List.Forall2
import ScopeStack.Layout
import ScopeStack.Proofs.Text.Literals
import ScopeStack.Proofs.Words

/-!
# The size and the contents of an initializer

A variable takes four bytes for every word that its initializer stands for
when the repetitions are written out. `Initializer.contents?` says which words
these are from the items as they are spelled, without runs and flat forms.

`initializer_size_exact` says which initializers have a flat form, what it is,
and when it can be measured. Counts and lengths are not negative, so that no sum
on the way overflows unless the whole does.

All of this is so as long as the length of each value is a word. A text of
`2 ^ 31` words or more has another length in the flat form, which may be
negative: `long_text_not_measured` shows what becomes of the size then. No such
text fits into the memory of a machine, so it does not concern programs that can
be loaded: `lengthsFit_of_short`.
-/

namespace ScopeStack

/-- The words that a constant stands for: a number or a character is one word, a
text the codes of its characters and a zero word. -/
def Atom.contents? (atom : Atom) : Option (List Int) :=
  match atom.kind with
  | .int => (Literal.readInt atom.lexeme).toOption.map fun value => [value]
  | .char => (Literal.readChar atom.lexeme).toOption.map fun code => [code]
  | .str => (Literal.readText atom.lexeme).toOption.map fun codes => codes ++ [0]

/-- The words that an item stands for: as many copies of the words of its value
as it counts. -/
def InitItem.contents? (item : InitItem) : Option (List Int) := do
  let count ← (Literal.readInt item.count.lexeme).toOption
  let words ← item.value.contents?
  return (List.replicate count.toNat words).flatten

/-- How many words a constant takes: one for a number or a character, and for a
text one more than it has codes. -/
def Atom.HasLength (atom : Atom) (length : Nat) : Prop :=
  match atom.kind with
  | .int | .char => length = 1
  | .str => ∃ codes, Literal.readText atom.lexeme = .ok codes ∧ length = codes.length + 1

/-- An item stands for a run: its count is read as the number of repetitions,
which is not negative, and its value as the words. -/
structure InitItem.Denotes (item : InitItem) (run : Initializer.Run) : Prop where
  times : Literal.readInt item.count.lexeme = .ok run.times
  words : item.value.contents? = some run.words
  length : item.value.HasLength run.words.length

namespace Initializer

/-- The words that an initializer stands for: those of its items, one after
another, or a single zero word if it has none. -/
def contents? : List InitItem → Option (List Int)
  | [] => some [0]
  | items => (items.mapM InitItem.contents?).map List.flatten

/-- An initializer stands for runs, one for each item; without items it stands
for a zero word that is given once. -/
def Denotes : List InitItem → List Run → Prop
  | [], runs => runs = [⟨1, [0]⟩]
  | items, runs => List.Forall₂ InitItem.Denotes items runs

/-- The length of every run is a word. -/
def LengthsFit (runs : List Run) : Prop := ∀ run ∈ runs, run.words.length ≤ 2147483647

/-- The number of bytes that runs fill: four for each word, each time. -/
def bytes : List Run → Int
  | [] => 0
  | run :: rest => 4 * (run.times * run.words.length) + bytes rest

end Initializer

/-- The length of the value of every item is a word. -/
def VarDef.LengthsFit (declared : VarDef) : Prop :=
  ∀ item ∈ declared.items, ∀ words ∈ item.value.contents?, words.length ≤ 2147483647

instance (declared : VarDef) : Decidable declared.LengthsFit :=
  inferInstanceAs (Decidable (∀ item ∈ declared.items, ∀ words ∈ item.value.contents?, _))

/-- The word with which a variable starts. -/
def VarDef.firstWord (declared : VarDef) : Word :=
  Word.ofInt (((Initializer.contents? declared.items).getD []).headD 0)

namespace Initializer

/-- A run stands for as many words as its own times the number of its copies. -/
@[simp] theorem length_expand_run (run : Run) :
    run.expand.length = run.times * run.words.length := by
  simp [Run.expand]

/-- The number of bytes is four for every word. -/
theorem bytes_eq (runs : List Run) : bytes runs = 4 * (expand runs).length := by
  induction runs with
  | nil => rfl
  | cons run rest hypothesis =>
    rw [bytes, hypothesis, expand, expand, List.flatMap_cons, List.length_append, length_expand_run,
      Int.natCast_add, Int.natCast_mul]
    omega

/-- The contents of a first run come before those of the remaining ones. -/
theorem expand_cons (run : Run) (rest : List Run) : expand (run :: rest) = run.expand ++ expand rest := by
  rw [expand, List.flatMap_cons, expand]

/-- A length is written as it is if and only if it is a word. -/
theorem lengthWord_eq_iff {run : Run} :
    run.lengthWord = run.words.length ↔ run.words.length ≤ 2147483647 := by
  constructor
  · intro same
    have fits := Word.fits_toInt (Word.ofInt run.words.length)
    rw [← Run.lengthWord, same, Word.Fits] at fits
    omega
  · intro short
    exact Word.toInt_ofInt ⟨by omega, by omega⟩

/-- The cursor moves over as many words as the length says. -/
theorem skipped_natCast {length : Nat} (short : length ≤ 2147483647) :
    skipped length = length := by
  rw [skipped]
  omega

/-- Counting the words of a flat initializer gives the number of words that it
stands for, unless this number is too large. What is counted on the way is no
larger. -/
theorem countWords_encode {runs : List Run} (fit : LengthsFit runs) {total : Int}
    (low : 0 ≤ total) (high : total ≤ 2147483647) :
    countWords runs.length (runs.flatMap Run.encode) total =
      if total + (expand runs).length ≤ 2147483647 then .ok (total + (expand runs).length)
      else .error .exceedsAddressSpace := by
  induction runs generalizing total with
  | nil => simp [countWords, expand, high]
  | cons run rest hypothesis =>
    obtain ⟨short, restFit⟩ := List.forall_mem_cons.mp fit
    rw [List.flatMap_cons, Run.encode, lengthWord_eq_iff.mpr short, List.length_cons,
      List.cons_append, List.cons_append, countWords, skipped_natCast short, List.drop_left,
      expand_cons, List.length_append, length_expand_run, Int.natCast_add, Int.natCast_mul,
      ← Int.add_assoc]
    have product : 0 ≤ (run.times : Int) * (run.words.length : Int) :=
      Int.mul_nonneg (Int.natCast_nonneg _) (Int.natCast_nonneg _)
    by_cases fits : Word.Fits (run.times * run.words.length) ∧
        Word.Fits (total + run.times * run.words.length)
    · rw [if_pos fits, hypothesis restFit (by omega) fits.2.2]
    · rw [if_neg fits, if_neg]
      simp only [Word.Fits] at fits
      omega

/-- A flat initializer whose lengths are words is measured if its size is a word.
The size is four bytes for every word. -/
theorem byteSize_encode_eq {runs : List Run} (fit : LengthsFit runs) :
    byteSize (encode runs) =
      if 4 * ((expand runs).length : Int) ≤ 2147483647 then .ok (4 * (expand runs).length)
      else .error .exceedsAddressSpace := by
  have counted := countWords_encode fit (Int.le_refl 0) (by decide)
  rw [Int.zero_add] at counted
  simp only [byteSize, encode, List.headD_cons, Int.toNat_natCast, List.tail_cons, counted]
  by_cases small : ((expand runs).length : Int) ≤ 2147483647
  · rw [if_pos small, Int.mul_comm 4]
    by_cases fits : Word.Fits ((expand runs).length * 4)
    · rw [if_pos fits.2]
      exact if_pos fits
    · rw [if_neg (by simp only [Word.Fits] at fits; omega)]
      exact if_neg fits
  · rw [if_neg small, if_neg (by omega)]
    rfl

/-- The size of an initializer is four bytes for every word. -/
theorem byteSize_encode {runs : List Run} (fit : LengthsFit runs) {size : Int}
    (measured : byteSize (encode runs) = .ok size) : size = 4 * (expand runs).length := by
  rw [byteSize_encode_eq fit] at measured
  split at measured
  · cases measured
    rfl
  · cases measured

/-- Whatever is measured, its size is a word and a multiple of four. -/
theorem fits_of_byteSize {flat : List Int} {size : Int} (measured : byteSize flat = .ok size) :
    Word.Fits size ∧ 4 ∣ size := by
  rw [byteSize] at measured
  cases counted : countWords (flat.headD 0).toNat flat.tail 0 with
  | error cause =>
    rw [counted] at measured
    cases measured
  | ok total =>
    rw [counted] at measured
    by_cases fits : Word.Fits (total * 4)
    · cases (if_pos fits).symm.trans measured
      exact ⟨fits, Int.dvd_mul_left _ _⟩
    · cases (if_neg fits).symm.trans measured

/-- A constant that can be read is a word. -/
theorem fits_of_readInt {lexeme : String} {value : Int}
    (read : Literal.readInt lexeme = .ok value) : Word.Fits value := by
  rw [Literal.readInt] at read
  split at read
  next found spelled =>
    cases read
    rw [Decimal.word?] at spelled
    exact of_decide_eq_true (Option.filter_eq_some_iff.mp spelled).2
  · cases read

/-- Looking at what has been read as an option loses nothing but the error. -/
theorem map_eq_ok_iff_toOption {α β ε : Type} {read : Except ε α} {change : α → β} {result : β} :
    read.map change = .ok result ↔ read.toOption.map change = some result := by
  cases read with
  | error cause => exact ⟨nofun, nofun⟩
  | ok value => simp [Except.map, Except.toOption]

/-- The words of a constant are those that it stands for. -/
theorem valueWords_eq_ok_iff {atom : Atom} {words : List Int} :
    valueWords atom = .ok words ↔ atom.contents? = some words := by
  rw [valueWords, Atom.contents?]
  cases atom.kind with
  | int | char | str => exact map_eq_ok_iff_toOption

/-- A constant has the length of its words. -/
theorem hasLength_of_contents? {atom : Atom} {words : List Int}
    (found : atom.contents? = some words) : atom.HasLength words.length := by
  rw [Atom.contents?] at found
  rw [Atom.HasLength]
  cases kind : atom.kind with
  | int | char =>
    rw [kind] at found
    obtain ⟨value, -, rfl⟩ := Option.map_eq_some_iff.mp found
    rfl
  | str =>
    rw [kind] at found
    obtain ⟨codes, read, rfl⟩ := Option.map_eq_some_iff.mp found
    refine ⟨codes, ?_, by simp⟩
    cases reads : Literal.readText atom.lexeme with
    | error cause =>
      rw [reads] at read
      cases read
    | ok value =>
      rw [reads] at read
      cases read
      rfl

/-- The run of an item is the one that it stands for. -/
theorem runOfItem_eq_ok_iff {item : InitItem} {run : Run} :
    runOfItem item = .ok run ↔ item.Denotes run := by
  rw [runOfItem]
  constructor
  · intro found
    cases read : Literal.readInt item.count.lexeme with
    | error cause =>
      rw [read] at found
      cases found
    | ok count =>
      rw [read] at found
      by_cases negative : count < 0
      · cases (if_pos negative).symm.trans found
      · replace found := (if_neg negative).symm.trans found
        cases valued : valueWords item.value with
        | error cause =>
          rw [valued] at found
          cases found
        | ok words =>
          rw [valued] at found
          cases found
          have contents := valueWords_eq_ok_iff.mp valued
          refine ⟨?_, contents, hasLength_of_contents? contents⟩
          rw [read, Int.toNat_of_nonneg (Int.not_lt.mp negative)]
  · intro denotes
    have counted : ¬(run.times : Int) < 0 := by omega
    simp only [denotes.times, valueWords_eq_ok_iff.mpr denotes.words, Except.mapError, bind,
      Except.bind, if_neg counted]
    rfl

/-- A run stands for the words of its item, and its count is a word. -/
theorem contents?_of_denotes {item : InitItem} {run : Run} (denotes : item.Denotes run) :
    item.contents? = some run.expand ∧ Word.Fits run.times := by
  refine ⟨?_, fits_of_readInt denotes.times⟩
  rw [InitItem.contents?, denotes.times, denotes.words]
  rfl

/-- The runs of items are those that they stand for, one for each. -/
theorem runsOfItems_eq_ok_iff {items : List InitItem} {runs : List Run} :
    runsOfItems items = .ok runs ↔ List.Forall₂ InitItem.Denotes items runs := by
  induction items generalizing runs with
  | nil => simp [runsOfItems, eq_comm]
  | cons item rest hypothesis =>
    rw [List.forall₂_cons_left_iff]
    simp only [runsOfItems, bind, Except.bind]
    constructor
    · intro found
      split at found
      · cases found
      next run first =>
        split at found
        · cases found
        next more later =>
          cases found
          exact ⟨run, more, runOfItem_eq_ok_iff.mp first, hypothesis.mp later, rfl⟩
    · rintro ⟨run, more, denotes, others, rfl⟩
      rw [runOfItem_eq_ok_iff.mpr denotes, hypothesis.mpr others]
      rfl

/-- The runs of an initializer are those that it stands for, if the number of its
items is a word. -/
theorem runs_eq_ok_iff {items : List InitItem} {runs : List Run} :
    Initializer.runs items = .ok runs ↔ items.length ≤ 2147483647 ∧ Denotes items runs := by
  cases items with
  | nil => simp [Initializer.runs, Denotes, eq_comm]
  | cons item rest =>
    rw [Initializer.runs, if_neg (by simp)]
    by_cases many : 2147483647 < (item :: rest).length
    · rw [if_pos many]
      exact ⟨nofun, fun both => absurd both.1 (Nat.not_le.mpr many)⟩
    · rw [if_neg many, and_iff_right (Nat.not_lt.mp many)]
      exact runsOfItems_eq_ok_iff

/-- Items that denote runs have the contents of the runs, whose counts are words. -/
theorem contents?_of_forall₂ {items : List InitItem} {runs : List Run}
    (denotes : List.Forall₂ InitItem.Denotes items runs) :
    items.mapM InitItem.contents? = some (runs.map Run.expand) ∧
      ∀ run ∈ runs, Word.Fits run.times := by
  induction denotes with
  | nil => exact ⟨rfl, nofun⟩
  | cons first _ hypothesis =>
    obtain ⟨contents, fits⟩ := contents?_of_denotes first
    obtain ⟨restContents, restFit⟩ := hypothesis
    refine ⟨?_, List.forall_mem_cons.mpr ⟨fits, restFit⟩⟩
    rw [List.mapM_cons, contents, restContents]
    rfl

/-- The runs of an initializer stand for its contents. -/
theorem contents?_of_runs {items : List InitItem} {runs : List Run}
    (found : Initializer.runs items = .ok runs) :
    contents? items = some (expand runs) ∧ ∀ run ∈ runs, Word.Fits run.times := by
  cases items with
  | nil =>
    cases found
    exact ⟨rfl, by decide⟩
  | cons item rest =>
    obtain ⟨contents, fits⟩ := contents?_of_forall₂ (runs_eq_ok_iff.mp found).2
    refine ⟨?_, fits⟩
    rw [contents?, contents, Option.map_some, expand, List.flatMap_def]
    exact nofun

/-- A flat initializer is the flat form of runs. -/
theorem exists_runs_of_flatten {items : List InitItem} {flat : List Int}
    (flattened : flatten items = .ok flat) :
    ∃ runs, Initializer.runs items = .ok runs ∧ flat = encode runs := by
  rw [flatten] at flattened
  cases found : Initializer.runs items with
  | error cause =>
    rw [found] at flattened
    cases flattened
  | ok runs =>
    rw [found] at flattened
    cases flattened
    exact ⟨runs, rfl, rfl⟩

/-- An item stands for a run if its count is not negative and its value can be
read. -/
theorem exists_denotes_iff {item : InitItem} :
    (∃ run, item.Denotes run) ↔
      (∃ count, Literal.readInt item.count.lexeme = .ok count ∧ 0 ≤ count) ∧
        ∃ words, item.value.contents? = some words := by
  constructor
  · rintro ⟨run, times, words, -⟩
    exact ⟨⟨_, times, Int.natCast_nonneg _⟩, _, words⟩
  · rintro ⟨⟨count, read, nonneg⟩, words, found⟩
    refine ⟨⟨count.toNat, words⟩, ?_, found, hasLength_of_contents? found⟩
    rw [read, Int.toNat_of_nonneg nonneg]

/-- Items denote runs if each of them denotes one. -/
theorem exists_forall₂_iff {items : List InitItem} :
    (∃ runs, List.Forall₂ InitItem.Denotes items runs) ↔
      ∀ item ∈ items, ∃ run, item.Denotes run := by
  induction items with
  | nil => simp
  | cons item rest hypothesis =>
    rw [List.forall_mem_cons, ← hypothesis]
    constructor
    · rintro ⟨_, _ | ⟨denotes, others⟩⟩
      exact ⟨⟨_, denotes⟩, _, others⟩
    · rintro ⟨⟨run, denotes⟩, runs, others⟩
      exact ⟨run :: runs, .cons denotes others⟩

/-- An initializer has a flat form if the number of its items is a word and each of
them stands for a run. -/
theorem exists_flatten_iff {items : List InitItem} :
    (∃ flat, flatten items = .ok flat) ↔
      items.length ≤ 2147483647 ∧ ∀ item ∈ items, ∃ run, item.Denotes run := by
  rw [← exists_forall₂_iff]
  constructor
  · rintro ⟨flat, flattened⟩
    obtain ⟨runs, found, -⟩ := exists_runs_of_flatten flattened
    obtain ⟨few, denotes⟩ := runs_eq_ok_iff.mp found
    cases items with
    | nil => exact ⟨few, [], .nil⟩
    | cons item rest => exact ⟨few, runs, denotes⟩
  · rintro ⟨few, runs, denotes⟩
    cases items with
    | nil => exact ⟨_, rfl⟩
    | cons item rest =>
      have found : Initializer.runs (item :: rest) = .ok runs := runs_eq_ok_iff.mpr ⟨few, denotes⟩
      rw [flatten, found]
      exact ⟨_, rfl⟩

/-- The lengths of runs are words if those of the values are for which they stand,
and the other way round. -/
theorem lengthsFit_iff {declared : VarDef} {runs : List Run}
    (denotes : Denotes declared.items runs) : LengthsFit runs ↔ declared.LengthsFit := by
  rw [VarDef.LengthsFit]
  generalize declared.items = items at denotes
  cases items with
  | nil =>
    cases denotes
    exact ⟨nofun, fun _ => by simp [LengthsFit]⟩
  | cons item rest =>
    replace denotes : List.Forall₂ InitItem.Denotes (item :: rest) runs := denotes
    generalize item :: rest = items at denotes
    induction denotes with
    | nil => exact ⟨nofun, nofun⟩
    | cons first _ hypothesis =>
      rw [LengthsFit, List.forall_mem_cons, List.forall_mem_cons]
      refine and_congr ⟨?_, fun short => short _ first.words⟩ hypothesis
      intro short words found
      cases Option.some.inj (first.words.symm.trans found)
      exact short

/-- The flat form of an initializer is longer than the words of any of its
runs. -/
theorem length_words_lt_encode {runs : List Run} {run : Run} (member : run ∈ runs) :
    run.words.length < (encode runs).length := by
  obtain ⟨before, after, rfl⟩ := List.append_of_mem member
  simp only [encode, Run.encode, List.flatMap_append, List.flatMap_cons, List.length_cons,
    List.length_append]
  omega

/-- The flat form of an initializer is longer than its list of runs. -/
theorem length_lt_encode (runs : List Run) : runs.length < (encode runs).length := by
  induction runs with
  | nil => simp [encode]
  | cons run rest hypothesis =>
    simp only [encode, List.length_cons, List.flatMap_cons, List.length_append, Run.encode]
      at hypothesis ⊢
    omega

end Initializer

namespace Layout

/-- A variable can be measured when its initializer has a flat form that has a
size. -/
theorem measure_eq_ok {declared : VarDef} {flat : List Int} {size : Int} :
    measure declared = .ok (flat, size) ↔
      Initializer.flatten declared.items = .ok flat ∧ Initializer.byteSize flat = .ok size := by
  simp only [measure, bind, Except.bind]
  cases Initializer.flatten declared.items with
  | error cause => simp
  | ok own =>
    dsimp only
    cases measured : Initializer.byteSize own with
    | error cause =>
      constructor
      · intro same
        cases same
      · rintro ⟨⟨⟩, found⟩
        rw [measured] at found
        cases found
    | ok bytes =>
      constructor
      · intro same
        cases same
        exact ⟨rfl, measured⟩
      · rintro ⟨⟨⟩, found⟩
        rw [measured] at found
        cases found
        rfl

/-- A variable that can be measured has the runs of its initializer as its
words. -/
theorem exists_runs_of_measure {declared : VarDef} {flat : List Int} {size : Int}
    (fit : declared.LengthsFit) (measured : measure declared = .ok (flat, size)) :
    ∃ runs, Initializer.runs declared.items = .ok runs ∧ flat = Initializer.encode runs ∧
      size = 4 * (Initializer.expand runs).length := by
  obtain ⟨flattened, sized⟩ := measure_eq_ok.mp measured
  obtain ⟨runs, found, rfl⟩ := Initializer.exists_runs_of_flatten flattened
  have runsFit := (Initializer.lengthsFit_iff (Initializer.runs_eq_ok_iff.mp found).2).mpr fit
  exact ⟨runs, found, rfl, Initializer.byteSize_encode runsFit sized⟩

/-- The lengths of a variable with a short flat form are words. -/
theorem lengthsFit_of_short {declared : VarDef} {flat : List Int} {size : Int}
    (measured : measure declared = .ok (flat, size)) (short : flat.length ≤ 2147483648) :
    declared.LengthsFit := by
  obtain ⟨flattened, -⟩ := measure_eq_ok.mp measured
  obtain ⟨runs, found, rfl⟩ := Initializer.exists_runs_of_flatten flattened
  refine (Initializer.lengthsFit_iff (Initializer.runs_eq_ok_iff.mp found).2).mp fun run member => ?_
  have longer := Initializer.length_words_lt_encode member
  omega

/-- The bytes of a variable and of its flat form together are not negative. A text
whose length is not a word may make the size negative, but it makes the flat form
longer than any size can make up for. -/
theorem bytes_nonneg_of_measure {declared : VarDef} {flat : List Int} {size : Int}
    (measured : measure declared = .ok (flat, size)) : 0 ≤ size + 4 * flat.length := by
  by_cases fit : declared.LengthsFit
  · obtain ⟨runs, -, -, rfl⟩ := exists_runs_of_measure fit measured
    omega
  · have long := mt (lengthsFit_of_short measured) fit
    have fits := (Initializer.fits_of_byteSize (measure_eq_ok.mp measured).2).1
    simp only [Word.Fits] at fits
    omega

/-- A variable whose bytes, those of its flat form included, can be counted by a word
has a size that is not negative. -/
theorem size_nonneg_of_measure {declared : VarDef} {flat : List Int} {size : Int}
    (measured : measure declared = .ok (flat, size))
    (small : size + 4 * flat.length ≤ 2147483647) : 0 ≤ size := by
  have fits := (Initializer.fits_of_byteSize (measure_eq_ok.mp measured).2).1
  simp only [Word.Fits] at fits
  obtain ⟨runs, -, -, rfl⟩ :=
    exists_runs_of_measure (lengthsFit_of_short measured (by omega)) measured
  omega

end Layout

open Initializer

/-- The size of an initializer is exact. An initializer has a flat form if it has
no more items than a word can count, every count is read as a number that is not
negative and every value can be read. The flat form is the number of runs, and
for each run its repetitions, its length and its words; nothing is said about the
length of a text of `2 ^ 31` words or more. Without such a text the flat form is
never cut short: it is measured if the bytes of all runs are a word, and exceeds
the address space otherwise. -/
theorem initializer_size_exact (items : List InitItem) :
    ((∃ flat, flatten items = .ok flat) ↔ items.length ≤ 2147483647 ∧
      ∀ item ∈ items, (∃ count, Literal.readInt item.count.lexeme = .ok count ∧ 0 ≤ count) ∧
        ∃ words, item.value.contents? = some words) ∧
    ∀ flat, flatten items = .ok flat →
      ∃ runs, Denotes items runs ∧
        (∃ length : Run → Int,
          flat = (runs.length : Int) :: runs.flatMap (fun run =>
            (run.times : Int) :: length run :: run.words) ∧
          ∀ run ∈ runs, run.words.length ≤ 2147483647 → length run = run.words.length) ∧
        ((∀ run ∈ runs, run.words.length ≤ 2147483647) →
          byteSize flat ≠ .error .truncatedRecord ∧
          (∀ size, byteSize flat = .ok size ↔ size = bytes runs ∧ bytes runs ≤ 2147483647) ∧
          (2147483647 < bytes runs → byteSize flat = .error .exceedsAddressSpace)) := by
  refine ⟨?_, fun flat flattened => ?_⟩
  · rw [exists_flatten_iff]
    exact and_congr_right fun _ => forall₂_congr fun item _ => exists_denotes_iff
  · obtain ⟨runs, found, rfl⟩ := exists_runs_of_flatten flattened
    refine ⟨runs, (runs_eq_ok_iff.mp found).2,
      ⟨Run.lengthWord, rfl, fun run _ => lengthWord_eq_iff.mpr⟩, fun fit => ?_⟩
    rw [byteSize_encode_eq fit, ← bytes_eq]
    by_cases small : bytes runs ≤ 2147483647
    · rw [if_pos small]
      refine ⟨nofun, fun size => ?_, fun large => absurd small (Int.not_le.mpr large)⟩
      rw [Except.ok.injEq, and_iff_left small, eq_comm]
    · rw [if_neg small]
      exact ⟨nofun, fun size => ⟨nofun, fun both => absurd both.2 small⟩, fun _ => rfl⟩

/-- A text that is given twice, a number that is given never and a character. -/
def Initializer.mixed : List InitItem :=
  [⟨0, ⟨1, .int, "2"⟩, ⟨2, .str, "\"a\\n\""⟩⟩, ⟨3, ⟨4, .int, "0"⟩, ⟨5, .int, "-7"⟩⟩,
    ⟨6, ⟨7, .int, "+3"⟩, ⟨8, .char, "'x'"⟩⟩]

/-- The runs of the mixed initializer take 36 bytes, as its flat form says. -/
theorem initializer_size_exact_mixed :
    flatten mixed = .ok [3, 2, 3, 97, 10, 0, 0, 1, -7, 3, 1, 120] ∧
      ∃ runs, Denotes mixed runs ∧ (∀ run ∈ runs, run.words.length ≤ 2147483647) ∧
        bytes runs ≤ 2147483647 ∧
        byteSize [3, 2, 3, 97, 10, 0, 0, 1, -7, 3, 1, 120] = .ok (bytes runs) := by
  have flattened : flatten mixed = .ok [3, 2, 3, 97, 10, 0, 0, 1, -7, 3, 1, 120] := by decide
  obtain ⟨runs, denotes, -, measured⟩ := (initializer_size_exact mixed).2 _ flattened
  have found : Initializer.runs mixed = .ok [⟨2, [97, 10, 0]⟩, ⟨0, [-7]⟩, ⟨3, [120]⟩] := by decide
  cases found.symm.trans (runs_eq_ok_iff.mpr ⟨by decide, denotes⟩)
  have fit : ∀ run ∈ [Run.mk 2 [97, 10, 0], ⟨0, [-7]⟩, ⟨3, [120]⟩],
      run.words.length ≤ 2147483647 := by decide
  have small : bytes [⟨2, [97, 10, 0]⟩, ⟨0, [-7]⟩, ⟨3, [120]⟩] ≤ 2147483647 := by decide
  exact ⟨flattened, _, denotes, fit, small, ((measured fit).2.1 _).mpr ⟨rfl, small⟩⟩

namespace Initializer

/-- More items than a word can count have no flat form. -/
theorem flatten_of_many {items : List InitItem} (many : 2147483647 < items.length) :
    flatten items = .error (.initializer .tooManyElements) := by
  have some : items.isEmpty = false := by
    cases items with
    | nil => cases many
    | cons first rest => rfl
  rw [flatten, Initializer.runs, some, if_neg Bool.false_ne_true, if_pos many]
  rfl

/-- An initializer that stands for runs has their flat form. -/
theorem flatten_of_denotes {items : List InitItem} {runs : List Run}
    (few : items.length ≤ 2147483647) (denotes : Denotes items runs) :
    flatten items = .ok (encode runs) := by
  rw [flatten, runs_eq_ok_iff.mpr ⟨few, denotes⟩]
  rfl

/-- A record whose length leads beyond the end is the last one that is found. -/
theorem countWords_of_beyond {records : Nat} {times length total : Int} {rest : List Int}
    (fits : Word.Fits (times * length)) (fitsTotal : Word.Fits (total + times * length))
    (beyond : rest.length ≤ skipped length) :
    countWords (records + 2) (times :: length :: rest) total = .error .truncatedRecord := by
  rw [countWords, if_pos ⟨fits, fitsTotal⟩, List.drop_eq_nil_of_le beyond, countWords]
  nofun

/-- Copies of a number. -/
def numbers (count value : String) : InitItem := ⟨0, ⟨1, .int, count⟩, ⟨2, .int, value⟩⟩

/-- Copies of a text of equal characters. -/
def texts (count : String) (length : Nat) : InitItem :=
  ⟨3, ⟨4, .int, count⟩, ⟨5, .str, Literal.ofText (String.ofList (List.replicate length 'a'))⟩⟩

/-- The words of a text of equal characters. -/
theorem denotes_texts {count : String} {times : Nat} (length : Nat)
    (read : Literal.readInt count = .ok (times : Int)) :
    (texts count length).Denotes ⟨times, List.replicate length 97 ++ [0]⟩ := by
  have found : (texts count length).value.contents? =
      some (List.replicate length 97 ++ [0]) := by
    rw [texts, Atom.contents?]
    simp [Literal.readText_ofText, Except.toOption]
  exact ⟨read, found, hasLength_of_contents? found⟩

/-- A number that is given as often as a word can say, and a text. -/
def overfull (length : Nat) : List InitItem := [numbers "2147483647" "7", texts "1" length]

/-- What the first list stands for. -/
theorem denotes_overfull (length : Nat) :
    Denotes (overfull length) [⟨2147483647, [7]⟩, ⟨1, List.replicate length 97 ++ [0]⟩] :=
  .cons ⟨by decide, by decide, rfl⟩ (.cons (denotes_texts length (by decide)) .nil)

/-- A text that is given never, and a number. -/
def cutShort (length : Nat) : List InitItem := [texts "0" length, numbers "1" "5"]

/-- What the second list stands for. -/
theorem denotes_cutShort (length : Nat) :
    Denotes (cutShort length) [⟨0, List.replicate length 97 ++ [0]⟩, ⟨1, [5]⟩] :=
  .cons (denotes_texts length (by decide)) (.cons ⟨by decide, by decide, rfl⟩ .nil)

/-- The word of a length that no word can count. -/
theorem lengthWord_of_long {times : Nat} {words : List Int} (long : words.length = 2147483648) :
    (Run.mk times words).lengthWord = -2147483648 := by
  rw [Run.lengthWord, long]
  decide

/-- The flat form of a long text after a number starts with what is measured of it. -/
theorem encode_overfull {words : List Int} (long : words.length = 2147483648) :
    encode [⟨2147483647, [7]⟩, ⟨1, words⟩] =
      [2, 2147483647, 1, 7, 1, -2147483648] ++ words := by
  have single : (Run.mk 2147483647 [7]).lengthWord = 1 := by decide
  rw [encode, List.flatMap_cons, List.flatMap_cons, List.flatMap_nil, Run.encode, Run.encode,
    lengthWord_of_long long, single]
  simp

/-- A number after a long text is not found. -/
theorem byteSize_cutShort {words : List Int} (long : words.length = 2147483648) :
    byteSize (encode [⟨0, words⟩, ⟨1, [5]⟩]) = .error .truncatedRecord := by
  have cut : countWords 2 (0 :: -2147483648 :: (words ++ [1, 1, 5])) 0 =
      .error .truncatedRecord := by
    refine countWords_of_beyond (by decide) (by decide) ?_
    rw [List.length_append, long]
    decide
  have flat : encode [⟨0, words⟩, ⟨1, [5]⟩] = 2 :: 0 :: -2147483648 :: (words ++ [1, 1, 5]) := by
    have single : (Run.mk 1 [5]).lengthWord = 1 := by decide
    rw [encode, List.flatMap_cons, List.flatMap_cons, List.flatMap_nil, Run.encode, Run.encode,
      lengthWord_of_long long, single]
    simp
  rw [flat, byteSize]
  change countWords 2 (0 :: -2147483648 :: (words ++ [1, 1, 5])) 0 >>= _ = _
  rw [cut]
  rfl

end Initializer

/-- What becomes of lengths and counts that are not words. A text of `2 ^ 31`
words has a negative length. After a number that is given as often as a word can
say it makes the size negative, although the bytes of both exceed the address
space. Before another item it hides the rest of the flat form, even if the text
is given never. And items that no word can count have no flat form, although each
of them can be read. -/
theorem long_text_not_measured :
    (∃ runs rest, Denotes (overfull 2147483647) runs ∧ 2147483647 < bytes runs ∧
      flatten (overfull 2147483647) = .ok ([2, 2147483647, 1, 7, 1, -2147483648] ++ rest) ∧
      byteSize ([2, 2147483647, 1, 7, 1, -2147483648] ++ rest) = .ok (-4)) ∧
    (∃ runs flat, Denotes (cutShort 2147483647) runs ∧ bytes runs = 4 ∧
      flatten (cutShort 2147483647) = .ok flat ∧ byteSize flat = .error .truncatedRecord) ∧
    (∀ item ∈ List.replicate 2147483648 (numbers "1" "5"), ∃ run, item.Denotes run) ∧
      flatten (List.replicate 2147483648 (numbers "1" "5")) =
        .error (.initializer .tooManyElements) := by
  have first := denotes_overfull 2147483647
  have second := denotes_cutShort 2147483647
  have long : (List.replicate 2147483647 (97 : Int) ++ [0]).length = 2147483648 := by
    rw [List.length_append, List.length_replicate]
    rfl
  -- the words of the text are never looked at
  generalize List.replicate 2147483647 (97 : Int) ++ [0] = words at first second long
  refine ⟨⟨_, words, first, ?_, ?_, rfl⟩,
    ⟨_, _, second, ?_, flatten_of_denotes (by decide) second, byteSize_cutShort long⟩,
    fun item member => ?_, flatten_of_many (by rw [List.length_replicate]; decide)⟩
  · simp only [bytes, long]
    decide
  · rw [flatten_of_denotes (by decide) first, encode_overfull long]
  · simp only [bytes, long]
    decide
  · cases (List.mem_replicate.mp member).2
    exact ⟨⟨1, [5]⟩, by decide, by decide, rfl⟩

end ScopeStack
