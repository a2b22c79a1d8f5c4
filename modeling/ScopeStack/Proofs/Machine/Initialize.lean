import ScopeStack.Proofs.Initializers
import ScopeStack.Proofs.Machine.Watch

/-!
# Expanding initializers

The flat form of an initializer lies in the data of a program. Expanding it
writes the words that it stands for, repetitions written out, to the place of a
variable, and leaves all other memory alone, as long as this place has no byte in
common with the flat form. `step_init_writes_contents` says so of one step of
any machine.
-/

namespace ScopeStack

namespace Exec

variable {pc fp sp : Int} {ambient : Ambient}

/-- What an operation does that only writes words to an address. -/
def Writes (action : Exec Unit) (pc fp sp : Int) (ambient : Ambient) (memory : Memory)
    (target : Int) (words : List Int) : Prop :=
  ∃ after : Memory, Memory.Outside target (target + 4 * words.length) memory after ∧
    after.WordsAt target words ∧
    ∀ steps, action.run (.running pc fp sp memory ambient steps) =
      .ok () (.running pc fp sp after ambient steps)

/-- Writing words after words. -/
theorem Writes.append {first : Exec Unit} {second : Exec Unit} {memory : Memory}
    {target : Int} {words more : List Int}
    (written : Writes first pc fp sp ambient memory target words)
    (later : ∀ after : Memory, Memory.Outside target (target + 4 * words.length) memory after →
      Writes second pc fp sp ambient after (target + 4 * words.length) more) :
    Writes (do first; second) pc fp sp ambient memory target (words ++ more) := by
  obtain ⟨middle, outside, held, ran⟩ := written
  obtain ⟨after, outsideLater, heldLater, ranLater⟩ := later middle outside
  refine ⟨after, ?_, ?_, fun steps => ?_⟩
  · rw [List.length_append]
    exact (outside.mono (by omega)).trans (outsideLater.mono (by omega))
  · rw [Memory.wordsAt_append]
    exact ⟨held.intact outsideLater (by omega), heldLater⟩
  · rw [run_bind_of_ok (ran steps), ranLater]

/-- Copying words writes them. -/
theorem writes_copyWords {memory : Memory} {source target : Int} (words : List Int)
    (held : memory.WordsAt source words) (readable : memory.Addressable source (4 * words.length))
    (writable : memory.Addressable target (4 * words.length))
    (apart : Memory.Separate source (4 * words.length) target (4 * words.length)) :
    Writes (copyWords words.length source target) pc fp sp ambient memory target words := by
  induction words generalizing memory source target with
  | nil => exact ⟨memory, .refl _ _, trivial, fun _ => rfl⟩
  | cons word rest hypothesis =>
    simp only [List.length_cons, Memory.Addressable, Memory.separate_iff, Memory.Apart]
      at readable writable apart ⊢
    have put := Memory.Put.setWord memory target (Word.ofInt word)
    have first : Writes (do store target (← load source)) pc fp sp ambient memory target [word] := by
      refine ⟨_, put.outside, ⟨put.word, trivial⟩, fun steps => ?_⟩
      rw [run_bind_of_ok (run_load ⟨readable.1, by omega⟩), held.1]
      exact run_store ⟨writable.1, by omega⟩
    have split : copyWords (rest.length + 1) source target = (do
        (do store target (← load source))
        copyWords rest.length (source + 4) (target + 4)) := by
      simp only [copyWords, bind_assoc]
    rw [split]
    refine @Writes.append _ _ _ _ _ _ _ _ [word] rest first fun after outside => ?_
    simp only [List.length_singleton] at outside ⊢
    have size := outside.size
    have codeSize := outside.codeSize
    refine hypothesis (held.2.intact outside (by omega)) ?_ ?_ ?_
    all_goals simp only [Memory.Addressable, Memory.separate_iff, Memory.Apart, size, codeSize]; omega

/-- Copying words several times writes the contents of a run. -/
theorem writes_copyRuns {memory : Memory} {source target : Int} {words : List Int} (times : Nat)
    (held : memory.WordsAt source words) (readable : memory.Addressable source (4 * words.length))
    (writable : memory.Addressable target (4 * (times * words.length)))
    (apart : Memory.Separate source (4 * words.length) target (4 * (times * words.length))) :
    Writes (copyRuns words.length source times target) pc fp sp ambient memory target
      (Initializer.Run.mk times words).expand := by
  induction times generalizing memory target with
  | zero => exact ⟨memory, .refl _ _, trivial, fun _ => rfl⟩
  | succ times hypothesis =>
    have whole : ((times + 1 : Nat) : Int) * words.length = times * words.length + words.length := by
      rw [Int.natCast_add, Int.add_mul]
      omega
    have nonneg : 0 ≤ (times : Int) * words.length := Int.mul_nonneg (by omega) (by omega)
    simp only [whole, Memory.Addressable, Memory.separate_iff, Memory.Apart] at readable writable apart
    have expanded : (Initializer.Run.mk (times + 1) words).expand =
        words ++ (Initializer.Run.mk times words).expand := by
      simp [Initializer.Run.expand, List.replicate_succ]
    rw [expanded, copyRuns]
    have first : Writes (copyWords words.length source target) pc fp sp ambient memory target
        words := by
      apply writes_copyWords words held
      all_goals simp only [Memory.Addressable, Memory.separate_iff, Memory.Apart]; omega
    refine first.append fun after outside => ?_
    have size := outside.size
    have codeSize := outside.codeSize
    refine hypothesis (held.intact outside (by omega)) ?_ ?_ ?_
    all_goals simp only [Memory.Addressable, Memory.separate_iff, Memory.Apart, size, codeSize]; omega

/-- The counts of a run can be read back from memory. A run without words does
nothing, whatever its count. -/
def CountsFit (run : Initializer.Run) : Prop :=
  Word.Fits run.words.length ∧ (run.words ≠ [] → Word.Fits run.times)

/-- A short initializer has counts that can be read back. -/
theorem countsFit_of_short {items : List InitItem} {runs : List Initializer.Run}
    (found : Initializer.runs items = .ok runs)
    (short : (Initializer.encode runs).length ≤ 2147483647) :
    Word.Fits runs.length ∧ ∀ run ∈ runs, CountsFit run := by
  have fits {length : Nat} (shorter : length < (Initializer.encode runs).length) :
      Word.Fits length := by
    simp only [Word.Fits]
    omega
  exact ⟨fits (Initializer.length_lt_encode runs), fun run member =>
    ⟨fits (Initializer.length_words_lt_encode member),
      fun _ => (Initializer.contents?_of_runs found).2 run member⟩⟩

/-- How often the words of a run are copied: as often as it says, or never if it has none, which
comes to the same words. -/
theorem CountsFit.exists_copies {run : Initializer.Run} (fit : CountsFit run) :
    ∃ copies : Nat,
      (if (run.words.length : Int) ≤ 0 then 0 else (Word.ofInt run.times).toInt.toNat) = copies ∧
        (Initializer.Run.mk copies run.words).expand = run.expand ∧
        (copies : Int) * run.words.length = run.times * run.words.length := by
  obtain ⟨times, words⟩ := run
  cases words with
  | nil => exact ⟨0, rfl, by simp [Initializer.Run.expand], by simp⟩
  | cons word more =>
    dsimp only
    rw [Word.toInt_ofInt (fit.2 (by simp)), if_neg (by simp)]
    exact ⟨times, rfl, rfl, rfl⟩

/-- Expanding runs writes their contents one after another. -/
theorem writes_expandRecords {memory : Memory} {source target : Int} (runs : List Initializer.Run)
    (held : memory.WordsAt source (runs.flatMap Initializer.Run.encode))
    (fit : ∀ run ∈ runs, CountsFit run)
    (readable : memory.Addressable source (4 * (runs.flatMap Initializer.Run.encode).length))
    (writable : memory.Addressable target (4 * (Initializer.expand runs).length))
    (apart : Memory.Separate source (4 * (runs.flatMap Initializer.Run.encode).length) target
      (4 * (Initializer.expand runs).length)) :
    Writes (expandRecords runs.length source target) pc fp sp ambient memory target
      (Initializer.expand runs) := by
  induction runs generalizing memory source target with
  | nil => exact ⟨memory, .refl _ _, trivial, fun _ => rfl⟩
  | cons run rest hypothesis =>
    obtain ⟨times, words⟩ := run
    obtain ⟨ownFit, restFit⟩ := List.forall_mem_cons.mp fit
    have lengthFits : Word.Fits words.length := ownFit.1
    simp only [List.flatMap_cons, Initializer.Run.encode, Memory.wordsAt_append, Memory.WordsAt,
      List.length_append, List.length_cons, Initializer.expand_cons,
      Initializer.length_expand_run, Memory.Addressable, Memory.separate_iff, Memory.Apart,
      Int.natCast_add, Int.natCast_mul, Int.add_assoc] at held readable writable apart
    obtain ⟨⟨atCount, atLength, atWords⟩, atRest⟩ := held
    have nonneg : 0 ≤ (times : Int) * words.length := Int.mul_nonneg (by omega) (by omega)
    obtain ⟨repeated, counted, same, product⟩ := ownFit.exists_copies
    dsimp only at counted same product
    have step (steps : Nat) :
        (expandRecords (rest.length + 1) source target).run
          (.running pc fp sp memory ambient steps) = (do
            copyRuns words.length (source + 8) repeated target
            expandRecords rest.length (source + 8 + 4 * words.length)
              (target + 4 * (repeated * words.length)) : Exec Unit).run
          (.running pc fp sp memory ambient steps) := by
      rw [expandRecords, run_bind_of_ok (run_load ⟨readable.1, by omega⟩),
        run_bind_of_ok (run_load ⟨by omega, by omega⟩), atCount, atLength,
        Initializer.Run.lengthWord, Word.ofInt_toInt, Word.toInt_ofInt lengthFits]
      dsimp only
      rw [counted, Int.toNat_natCast]
    have first : Writes (copyRuns words.length (source + 8) repeated target) pc fp sp ambient memory
        target (Initializer.Run.mk times words).expand := by
      rw [← same]
      apply writes_copyRuns repeated (by rwa [show source + 8 = source + (4 + 4) by omega])
      all_goals simp only [Memory.Addressable, Memory.separate_iff, Memory.Apart, product]; omega
    have second : Writes (do
        copyRuns words.length (source + 8) repeated target
        expandRecords rest.length (source + 8 + 4 * words.length)
          (target + 4 * (repeated * words.length))) pc fp sp ambient memory target
        ((Initializer.Run.mk times words).expand ++ Initializer.expand rest) := by
      refine first.append fun after outside => ?_
      simp only [Initializer.length_expand_run, Int.natCast_mul] at outside ⊢
      have size := outside.size
      have codeSize := outside.codeSize
      rw [product]
      have restStart : source + 4 * ((words.length : Int) + (((1 : Nat) : Int) + ((1 : Nat) : Int))) =
          source + 8 + 4 * words.length := by omega
      rw [restStart] at atRest
      refine hypothesis (atRest.intact outside (by omega)) restFit ?_ ?_ ?_
      all_goals simp only [Memory.Addressable, Memory.separate_iff, Memory.Apart, size, codeSize]; omega
    obtain ⟨after, outside, held, ran⟩ := second
    rw [Initializer.expand_cons]
    exact ⟨after, outside, held, fun steps => (step steps).trans (ran steps)⟩

/-- Expanding the flat form of an initializer writes the words that it stands
for. -/
theorem writes_expandInitializer {memory : Memory} {source target : Int}
    {runs : List Initializer.Run} (held : memory.WordsAt source (Initializer.encode runs))
    (fits : Word.Fits runs.length) (fit : ∀ run ∈ runs, CountsFit run)
    (readable : memory.Addressable source (4 * (Initializer.encode runs).length))
    (writable : memory.Addressable target (4 * (Initializer.expand runs).length))
    (apart : Memory.Separate source (4 * (Initializer.encode runs).length) target
      (4 * (Initializer.expand runs).length)) :
    Writes (expandInitializer source target) pc fp sp ambient memory target
      (Initializer.expand runs) := by
  rw [Initializer.encode] at held readable apart
  simp only [List.length_cons, Memory.Addressable, Memory.separate_iff, Memory.Apart]
    at readable writable apart
  obtain ⟨after, outside, written, ran⟩ : Writes (expandRecords runs.length (source + 4) target) pc
      fp sp ambient memory target (Initializer.expand runs) := by
    apply writes_expandRecords runs held.2 fit
    all_goals simp only [Memory.Addressable, Memory.separate_iff, Memory.Apart]; omega
  refine ⟨after, outside, written, fun steps => ?_⟩
  rw [expandInitializer, run_bind_of_ok (run_load ⟨readable.1, by omega⟩), held.1,
    Word.toInt_ofInt fits]
  exact ran steps

/-- Giving a variable its initial words: the place of the flat form is on top of
the stack, that of the variable below it. -/
theorem run_init {memory : Memory} {source target : Int} {runs : List Initializer.Run}
    (inside : memory.Addressable sp 8)
    (top : (memory.word sp).toInt = source) (below : (memory.word (sp + 4)).toInt = target)
    (held : memory.WordsAt source (Initializer.encode runs))
    (fits : Word.Fits runs.length) (fit : ∀ run ∈ runs, CountsFit run)
    (readable : memory.Addressable source (4 * (Initializer.encode runs).length))
    (writable : memory.Addressable target (4 * (Initializer.expand runs).length))
    (apart : Memory.Separate source (4 * (Initializer.encode runs).length) target
      (4 * (Initializer.expand runs).length)) :
    ∃ after : Memory,
      Memory.Outside target (target + 4 * (Initializer.expand runs).length) memory after ∧
      after.WordsAt target (Initializer.expand runs) ∧
      ∀ next steps, (execute next .init).run (.running pc fp sp memory ambient steps) =
        .ok () (.running next fp (sp + 8) after ambient steps) := by
  obtain ⟨above, room⟩ := inside
  obtain ⟨after, outside, written, ran⟩ := @writes_expandInitializer pc fp (sp + 8) ambient
    memory source target runs held fits fit readable writable apart
  refine ⟨after, outside, written, fun next steps => ?_⟩
  have first := @run_popInt_of_addressable pc fp sp memory ambient steps ⟨above, by omega⟩
  have second := @run_popInt_of_addressable pc fp (sp + 4) memory ambient steps
    ⟨by omega, by omega⟩
  rw [show sp + 4 + 4 = sp + 8 by omega, below] at second
  rw [execute, run_bind_of_ok first, top, run_bind_of_ok second, run_bind_of_ok (ran steps)]
  rfl

end Exec

namespace Watch

variable {executable : Executable} {watch : Watch executable} {count : Nat}
  {live : List Activation} {pc fp sp : Int} {memory : Memory} {ambient : Ambient}

/-- Giving a variable its initial words: the place of the flat form is on top of
the stack, that of the variable below it. -/
theorem at_init {source target : Int} {runs : List Initializer.Run}
    (stacked : Stacked sp memory ambient) (good : watch.good pc fp memory live)
    (fetch : executable.slots[pc]? = some .init) (inside : sp + 8 ≤ memory.size)
    (top : (memory.word sp).toInt = source) (below : (memory.word (sp + 4)).toInt = target)
    (held : memory.WordsAt source (Initializer.encode runs))
    (fits : Word.Fits runs.length) (fit : ∀ run ∈ runs, Exec.CountsFit run)
    (readable : memory.Addressable source (4 * (Initializer.encode runs).length))
    (writable : memory.Addressable target (4 * (Initializer.expand runs).length))
    (apart : Memory.Separate source (4 * (Initializer.encode runs).length) target
      (4 * (Initializer.expand runs).length))
    (next : ∀ after : Memory,
      Memory.Outside target (target + 4 * (Initializer.expand runs).length) memory after →
      after.WordsAt target (Initializer.expand runs) → Stacked (sp + 8) after ambient →
      watch.At (count - 1) live (pc + 1) fp (sp + 8) after ambient) :
    watch.At count live pc fp sp memory ambient := by
  have heap := stacked.heap
  obtain ⟨after, outside, written, ran⟩ := @Exec.run_init pc fp sp ambient memory source target runs
    ⟨Int.le_trans stacked.code heap, inside⟩ top below held fits fit readable writable apart
  have highest := stacked.moved (by omega) inside outside.size outside.codeSize
  exact at_of_ok fetch good (track_eq fetch nofun nofun) (ran (pc + 1))
    (next after outside written highest)

end Watch

/-- A step that gives a variable its initial words, with the flat form of an
initializer on top of the stack and the place of the variable below it: the
contents of the initializer lie there afterward, and no other byte has
changed. -/
theorem step_init_writes_contents {executable : Executable} {state : State}
    {items : List InitItem} {flat : List Int} {size source target : Int}
    (flattened : Initializer.flatten items = .ok flat)
    (sized : Initializer.byteSize flat = .ok size)
    (running : state.status = .running)
    (allowed : executable.reachedLimit? state.steps = none)
    (fetch : executable.slots[state.registers.pc]? = some .init)
    (bounded : state.memory.size ≤ Config.maxStackTop)
    (inside : state.memory.Addressable state.registers.sp 8)
    (top : (state.memory.word state.registers.sp).toInt = source)
    (below : (state.memory.word (state.registers.sp + 4)).toInt = target)
    (held : state.memory.WordsAt source flat)
    (readable : state.memory.Addressable source (4 * flat.length))
    (writable : state.memory.Addressable target size)
    (apart : Memory.Separate source (4 * flat.length) target size) :
    ∃ words after, Initializer.contents? items = some words ∧ size = 4 * words.length ∧
      executable.step.run state = .ok .running
        { state with
          registers :=
            { state.registers with pc := state.registers.pc + 1, sp := state.registers.sp + 8 }
          memory := after
          steps := state.steps + 1 } ∧
      after.WordsAt target words ∧ Memory.Outside target (target + size) state.memory after := by
  obtain ⟨registers, memory, status, steps, input, output⟩ := state
  obtain ⟨pc, fp, sp, hp⟩ := registers
  dsimp only at running allowed fetch bounded inside top below held readable writable apart ⊢
  subst running
  obtain ⟨runs, found, rfl⟩ := Initializer.exists_runs_of_flatten flattened
  obtain ⟨contents, timesFit⟩ := Initializer.contents?_of_runs found
  -- The flat form lies in memory, so that its length bounds every length in it.
  have fits {length : Nat} (shorter : length < (Initializer.encode runs).length) :
      Word.Fits length := by
    have low := (memory.word sp).le_toInt
    have room := readable.2
    simp only [Word.Fits, Config.maxStackTop] at bounded ⊢
    omega
  obtain rfl := Initializer.byteSize_encode (fun run member => by
    have lengthFits := (fits (Initializer.length_words_lt_encode member)).2
    omega) sized
  obtain ⟨after, outside, written, ran⟩ := @Exec.run_init pc fp sp ⟨hp, input, output⟩ memory
    source target runs inside top below held (fits (Initializer.length_lt_encode runs))
    (fun run member =>
      ⟨fits (Initializer.length_words_lt_encode member), fun _ => timesFit run member⟩)
    readable writable apart
  refine ⟨Initializer.expand runs, after, contents, rfl, ?_, written, outside⟩
  exact (Executable.step_of_fetch rfl allowed fetch).trans
    (Exec.run_bind_of_ok (ran (pc + 1) (steps + 1)))

/-- A text that is given twice, and a number. -/
def Initializer.sample : List InitItem :=
  [⟨0, ⟨1, .int, "2"⟩, ⟨2, .str, "\"a\""⟩⟩, ⟨3, ⟨4, .int, "1"⟩, ⟨5, .int, "-7"⟩⟩]

/-- A machine that is about to expand this initializer. -/
def State.initializing : State where
  registers := ⟨0, 100, 92, 60⟩
  memory := [(4, 2), (8, 2), (12, 2), (16, 97), (20, 0), (24, 1), (28, 1), (32, -7), (92, 4),
    (96, 40)].foldl (fun memory entry => memory.setWord entry.1 entry.2) (Memory.zero 100 1)
  status := .running
  steps := 0
  input := []
  output := .empty none

/-- A program that is this one instruction. -/
def Executable.initializing : Executable where
  config := ⟨100, none⟩
  slots := (∅ : Std.TreeMap Int Opcode).insert 0 .init
  labels := ∅
  memory := Memory.zero 100 1
  dataEnd := 60

/-- The machine writes the text twice and the number once. -/
theorem step_init_writes_contents_sample :
    ∃ after, Executable.initializing.step.run State.initializing = .ok .running
        { State.initializing with registers := ⟨1, 100, 100, 60⟩, memory := after, steps := 1 } ∧
      after.WordsAt 40 [97, 0, 97, 0, -7] ∧
      Memory.Outside 40 60 State.initializing.memory after := by
  obtain ⟨words, after, contents, -, stepped, written, outside⟩ :=
    @step_init_writes_contents Executable.initializing State.initializing Initializer.sample
      [2, 2, 2, 97, 0, 1, 1, -7] 20 4 40 rfl rfl rfl rfl (by decide +kernel) (by decide +kernel)
      (by decide +kernel) (by decide +kernel) (by decide +kernel)
      (by simp only [Memory.WordsAt]; decide +kernel) (by decide +kernel) (by decide +kernel)
      (Memory.separate_iff.mpr (.inr (.inr (.inl (by decide +kernel)))))
  cases (show some [97, 0, 97, 0, -7] = some words from contents)
  exact ⟨after, stepped, written, outside⟩

end ScopeStack
