import ScopeStack.Proofs.Machine.Calling

/-!
# Texts in memory

A text lies in memory as the codes of its characters, one word each, and a zero
word after them. `Memory.Shows` says which characters the words from an address
on stand for, up to a word that is zero or cannot be read. Whatever memory
holds, there is one such text; it is the one that `putstr` writes.
-/

namespace ScopeStack

namespace Word

/-- A word stands for the character whose code it is. If no character has this
code, the replacement character stands in. -/
inductive Shows (word : Word) : Char → Prop where
  | code {char : Char} (same : ofInt char.toNat = word) : Shows word char
  | unknown (none : ∀ char : Char, ofInt char.toNat ≠ word) : Shows word '�'

/-- The code of a character is not changed by its way through a word. -/
theorem bits_code (char : Char) : bits (ofInt char.toNat) = char.toNat := by
  rw [bits, ofInt, Int32.ofInt_eq_ofNat, Int32.toUInt32_ofNat']
  exact UInt32.toNat_ofNat_of_lt' char.val.toNat_lt

/-- Different characters have different codes. -/
theorem code_inj {first second : Char} :
    ofInt first.toNat = ofInt second.toNat ↔ first = second := by
  refine ⟨fun same => ?_, fun same => by rw [same]⟩
  have bits := congrArg bits same
  rw [bits_code, bits_code] at bits
  exact Char.toNat_inj.mp bits

/-- A word is shown as one character. -/
theorem Shows.unique {word : Word} {first second : Char} (shows : Shows word first)
    (other : Shows word second) : first = second := by
  cases shows with
  | code same =>
    cases other with
    | code also => exact code_inj.mp (same.trans also.symm)
    | unknown none => exact absurd same (none first)
  | unknown none =>
    cases other with
    | code same => exact absurd same (none second)
    | unknown => rfl

/-- What a word is shown as. -/
theorem shows_charOfWord (word : Word) : Shows word (Exec.charOfWord word) := by
  rw [Exec.charOfWord]
  split
  next valid =>
    have value : (Char.ofNat (bits word)).toNat = bits word := by
      rw [Char.ofNat, dif_pos valid]
      rfl
    exact .code (by rw [value, ofInt, Int32.ofInt_eq_ofNat, ofNat_bits])
  next invalid =>
    refine .unknown fun char same => invalid ?_
    rw [← same, bits_code]
    exact char.valid

-- A negative word, a surrogate, and one past the last code.
example : [-1, 0xD800, 0x110000, 0x41].map Exec.charOfWord = ['�', '�', '�', 'A'] := by decide

end Word

namespace Memory

variable {memory : Memory} {address stop limit : Int} {text other : List Char}

/-- Words from one address on to another stand for a text. All of them can be
read and none is zero. -/
inductive Shows (memory : Memory) : Int → List Char → Int → Prop where
  | nil {address : Int} : memory.Shows address [] address
  | cons {address stop : Int} {char : Char} {text : List Char}
    (readable : memory.Addressable address 4) (nonzero : memory.word address ≠ 0)
    (shows : Word.Shows (memory.word address) char) (rest : memory.Shows (address + 4) text stop) :
    memory.Shows address (char :: text) stop

/-- No text goes on at an address. -/
def Ends (memory : Memory) (address : Int) : Prop :=
  memory.Addressable address 4 → memory.word address = 0

/-- There is one text at an address. -/
theorem Shows.unique (shows : memory.Shows address text stop) (ends : memory.Ends stop)
    (also : memory.Shows address other limit) (ended : memory.Ends limit) :
    text = other ∧ stop = limit := by
  induction shows generalizing other with
  | nil =>
    cases also with
    | nil => exact ⟨rfl, rfl⟩
    | cons readable nonzero => exact absurd (ends readable) nonzero
  | cons readable nonzero shows rest hypothesis =>
    cases also with
    | nil => exact absurd (ended readable) nonzero
    | cons _ _ shown further =>
      obtain ⟨same, reached⟩ := hypothesis ends further
      exact ⟨by rw [shows.unique shown, same], reached⟩

/-- The codes of the characters of a text. -/
def codes (text : List Char) : List Int := text.map fun char => (char.toNat : Int)

/-- Where a text has been stored, memory shows it up to its first zero
character. -/
theorem exists_shows_of_wordsAt (held : memory.WordsAt address (codes text ++ [0]))
    (readable : memory.Addressable address (4 * (text.length + 1))) :
    ∃ stop, memory.Shows address (text.takeWhile (· != '\x00')) stop ∧
      memory.Addressable stop 4 ∧ memory.word stop = 0 := by
  induction text generalizing address with
  | nil => exact ⟨address, .nil, readable, held.1⟩
  | cons char rest hypothesis =>
    obtain ⟨first, later⟩ := held
    obtain ⟨low, high⟩ := readable
    rw [List.length_cons] at high
    have here : memory.Addressable address 4 := ⟨low, by omega⟩
    by_cases zero : char = '\x00'
    · subst zero
      exact ⟨address, .nil, here, first⟩
    · obtain ⟨stop, shows, ends⟩ := hypothesis later ⟨by omega, by omega⟩
      refine ⟨stop, ?_, ends⟩
      rw [List.takeWhile_cons_of_pos (by simpa using zero)]
      refine .cons here (fun none => zero ?_) (.code first.symm) shows
      exact Word.code_inj.mp (first.symm.trans none)

end Memory

namespace Exec

variable {memory : Memory} {address : Int}

/-- The search for the end of a text meets a zero word or an address that cannot
be read. The number of words is large enough if it leads past the end of
memory. -/
theorem textFrom_cases {count : Nat} {seen : List Char}
    (enough : memory.codeSize ≤ address → memory.size < address + count) :
    ∃ text stop, memory.Shows address text stop ∧
      (memory.Addressable stop 4 ∧ memory.word stop = 0 ∧
          textFrom memory count address seen = .ok (seen.reverse ++ text) ∨
        ¬memory.Addressable stop 4 ∧
          textFrom memory count address seen = .error (.memoryFault stop)) := by
  induction count generalizing address seen with
  | zero =>
    refine ⟨[], address, .nil, .inr ⟨fun readable => ?_, rfl⟩⟩
    have := enough readable.1
    have := readable.2
    omega
  | succ count hypothesis =>
    rw [textFrom, Memory.load]
    by_cases readable : memory.Addressable address 4
    · rw [if_pos readable]
      dsimp only
      by_cases zero : memory.word address = 0
      · refine ⟨[], address, .nil, .inl ⟨readable, zero, ?_⟩⟩
        rw [if_pos zero, List.append_nil]
      · have further : memory.codeSize ≤ address + 4 → memory.size < address + 4 + count := by
          have := enough readable.1
          omega
        obtain ⟨text, stop, shows, found⟩ :=
          @hypothesis (address + 4) (charOfWord (memory.word address) :: seen) further
        refine ⟨_, stop, .cons readable zero (Word.shows_charOfWord _) shows, ?_⟩
        rw [if_neg zero]
        simpa using found
    · refine ⟨[], address, .nil, .inr ⟨readable, ?_⟩⟩
      rw [if_neg readable]

/-- Storing a text writes its words and the zero word after them, and nothing
else. -/
theorem run_storeText {pc fp sp : Int} {ambient : Ambient} {steps : Nat} {text : List Char}
    (writable : memory.Addressable address (4 * (text.length + 1))) :
    ∃ after, (storeText address text).run (.running pc fp sp memory ambient steps) =
        .ok () (.running pc fp sp after ambient steps) ∧
      after.WordsAt address (Memory.codes text ++ [0]) ∧
      Memory.Outside address (address + 4 * (text.length + 1)) memory after := by
  induction text generalizing address memory with
  | nil =>
    have put := Memory.Put.setWord memory address 0
    exact ⟨_, run_store writable, ⟨put.word, trivial⟩, put.outside⟩
  | cons char rest hypothesis =>
    obtain ⟨low, high⟩ := writable
    rw [List.length_cons] at high ⊢
    have put := Memory.Put.setWord memory address (Word.ofInt char.toNat)
    have stored := @run_store pc fp sp memory ambient steps address (Word.ofInt char.toNat)
      ⟨low, by omega⟩
    obtain ⟨after, ran, held, outside⟩ := @hypothesis
      (memory.setWord address (Word.ofInt char.toNat)) (address + 4)
      ⟨by rw [Memory.codeSize_setWord]; omega, by rw [Memory.size_setWord]; omega⟩
    refine ⟨after, (run_bind_of_ok stored).trans ran, ⟨?_, held⟩, ?_⟩
    · exact (outside.word fun index _ _ => by omega).trans put.word
    · exact (put.intact (by omega)).trans (outside.mono (by omega))

end Exec

namespace Executable

variable {executable : Executable} {address : Int} {state : State}

/-- A call of `getstr` stores the next line. -/
theorem CallsWith.step_getstr {line : List Char} {rest : List UInt8}
    (calls : executable.CallsWith .getstr address state)
    (read : Input.readLine state.input = (.ok line, rest))
    (writable : state.memory.Addressable address (4 * (line.length + 1)))
    (apart : Memory.Apart address (4 * (line.length + 1)) (state.registers.sp + 8) 4) :
    ∃ after,
      executable.step.run state =
        .ok .running { state.answered with memory := after, input := rest } ∧
      after.WordsAt address (Memory.codes line ++ [0]) ∧
      after.word (state.registers.sp + 8) = 1 ∧
      Memory.Intact (fun index =>
        (index < address ∨ address + 4 * (line.length + 1) ≤ index) ∧
          (index < state.registers.sp + 8 ∨ state.registers.sp + 12 ≤ index))
        state.memory after := by
  obtain ⟨stored, ran, held, outside⟩ := @Exec.run_storeText _ _ state.registers.pc
    state.registers.fp (state.registers.sp + 8 + 4) { state.ambient with input := rest }
    (state.steps + 1) _ writable
  have put := Memory.Put.setWord stored (state.registers.sp + 8) 1
  have done : (do
      let line ← Exec.read Input.readLine
      Exec.storeText address line
      return some 1 : Exec (Option Word)).run state.taken =
      .ok (some 1) { state.taken with memory := stored, input := rest } := by
    rw [calls.taken_eq]
    exact (Exec.run_bind_of_ok (Exec.run_read read)).trans (Exec.run_bind_of_ok ran)
  refine ⟨_, calls.step_of_ok rfl done outside.size outside.codeSize, ?_, put.word, ?_⟩
  · refine held.intact put.outside fun index first last => ?_
    simp only [Memory.codes, List.length_append, List.length_map, List.length_singleton] at last
    rcases apart with before | behind
    · exact .inl (by omega)
    · exact .inr (by omega)
  · exact (outside.mono fun index apart => apart.1).trans (put.intact (by omega))

/-- A call of `putstr` writes the text at its argument, or fails where it cannot
be read. -/
theorem CallsWith.step_putstr (calls : executable.CallsWith .putstr address state) :
    ∃ text stop, state.memory.Shows address text stop ∧
      (state.memory.Addressable stop 4 ∧ state.memory.word stop = 0 ∧
          executable.Puts state (Utf8.encode text) ∨
        ¬state.memory.Addressable stop 4 ∧
          executable.step.run state = .error (.memoryFault stop) state.taken) := by
  have enough : state.memory.codeSize ≤ address →
      state.memory.size < address + (state.memory.size + 1 : Nat) := by
    have := calls.code
    omega
  obtain ⟨text, stop, shows, found⟩ := @Exec.textFrom_cases _ _ _ [] enough
  refine ⟨text, stop, shows, found.imp ?_ ?_⟩
  · rintro ⟨readable, zero, found⟩
    refine ⟨readable, zero, calls.puts rfl ?_⟩
    rw [Exec.run_bind_of_ok Exec.run_get,
      show Exec.textAt state.taken.memory address = _ from found]
    rfl
  · rintro ⟨unreadable, found⟩
    refine ⟨unreadable, calls.step_of_error rfl ?_⟩
    rw [Exec.run_bind_of_ok Exec.run_get,
      show Exec.textAt state.taken.memory address = _ from found]
    rfl

/-- A call of `putstr` where a text has been stored. -/
theorem CallsWith.puts_of_wordsAt {text : List Char}
    (calls : executable.CallsWith .putstr address state)
    (held : state.memory.WordsAt address (Memory.codes text ++ [0]))
    (readable : state.memory.Addressable address (4 * (text.length + 1))) :
    executable.Puts state (Utf8.encode (text.takeWhile (· != '\x00'))) := by
  obtain ⟨last, shown, closing, zero⟩ := Memory.exists_shows_of_wordsAt held readable
  obtain ⟨found, stop, shows, ends⟩ := calls.step_putstr
  rcases ends with ⟨-, ends, puts⟩ | ⟨unreadable, -⟩
  · obtain ⟨rfl, -⟩ := shows.unique (fun _ => ends) shown (fun _ => zero)
    exact puts
  · obtain ⟨-, rfl⟩ := shows.unique (fun readable => absurd readable unreadable) shown
      (fun _ => zero)
    exact absurd closing unreadable

end Executable

/-- Texts pass through memory as they are. A call of `getstr` with room for the
next line stores its characters and a zero word, changes no other byte but those
of its result, and any later call of `putstr` that finds these words writes the
line up to its first zero character. In general a call of `putstr` writes the
characters of the words up to a zero word, the replacement character for words
that are the code of none; if it meets an address that cannot be read before, it
fails there and writes nothing. -/
theorem texts_pass_through_memory {executable : Executable} {address : Int} :
    (∀ state line rest, executable.CallsWith .getstr address state →
      Input.readLine state.input = (.ok line, rest) →
      state.memory.Addressable address (4 * (line.length + 1)) →
      Memory.Apart address (4 * (line.length + 1)) (state.registers.sp + 8) 4 →
      ∃ after,
        executable.step.run state =
          .ok .running { state.answered with memory := after, input := rest } ∧
        after.WordsAt address (Memory.codes line ++ [0]) ∧
        after.word (state.registers.sp + 8) = 1 ∧
        Memory.Intact (fun index =>
          (index < address ∨ address + 4 * (line.length + 1) ≤ index) ∧
            (index < state.registers.sp + 8 ∨ state.registers.sp + 12 ≤ index))
          state.memory after ∧
        ∀ later, executable.CallsWith .putstr address later →
          Memory.Intact (fun index => address ≤ index ∧ index < address + 4 * (line.length + 1))
            after later.memory →
          executable.Puts later (Utf8.encode (line.takeWhile (· != '\x00')))) ∧
    ∀ state, executable.CallsWith .putstr address state →
      ∃ text stop, state.memory.Shows address text stop ∧
        (state.memory.Addressable stop 4 ∧ state.memory.word stop = 0 ∧
            executable.Puts state (Utf8.encode text) ∨
          ¬state.memory.Addressable stop 4 ∧
            executable.step.run state = .error (.memoryFault stop) state.taken) := by
  refine ⟨fun state line rest calls read writable apart => ?_, fun state calls => calls.step_putstr⟩
  obtain ⟨after, stepped, held, result, outside⟩ := calls.step_getstr read writable apart
  refine ⟨after, stepped, held, result, outside, fun later calls intact => ?_⟩
  refine calls.puts_of_wordsAt (held.intact intact fun index first last => ⟨first, ?_⟩) ?_
  · simpa [Memory.codes] using last
  · rw [Memory.Addressable, intact.size, intact.codeSize, outside.size, outside.codeSize]
    exact writable

/-- The second character of the line ends what is written of it. -/
theorem texts_pass_through_memory_sample :
    let state := State.calling .getstr 12 (.zero 64 1) (Utf8.encode ['h', '\x00', 'é', '\n', 'k'])
    ∃ after,
      Executable.calling.step.run state =
        .ok .running { state.answered with memory := after, input := [107] } ∧
      after.WordsAt 12 [104, 0, 233, 0] ∧ after.word 60 = 1 ∧
      Executable.calling.Puts (.calling .putstr 12 after []) [104] := by
  intro state
  obtain ⟨after, stepped, held, result, outside, puts⟩ :=
    (@texts_pass_through_memory Executable.calling 12).1 state ['h', '\x00', 'é'] [107]
      (Executable.callsWith_calling .getstr 12 rfl rfl _) rfl (by decide +kernel)
      (.inl (by decide +kernel))
  have calls := Executable.callsWith_calling .putstr 12 outside.size outside.codeSize []
  refine ⟨after, stepped, held, result, puts _ calls ?_⟩
  exact ((Memory.Put.setWord after 52 _).intact (by simp; omega)).trans
    ((Memory.Put.setWord _ 60 12).intact (by simp; omega))

end ScopeStack
