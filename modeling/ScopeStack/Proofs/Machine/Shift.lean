import ScopeStack.Proofs.Machine.Operations

/-!
# Shifting the stack

A shift of the stack is two loops that share a count of bytes: `Exec.fill` pushes
zero words and adds four to the count for each as long as it is negative, then
`Exec.drain` pops words and takes four away for each as long as it is positive.
A negative count that is not a multiple of four makes the first loop go one word
too far, and the second takes that word back.

For each loop it is shown where the stack pointer ends, and exactly when the loop
runs out of room or of words before.
-/

namespace ScopeStack.Exec

/-- Push zero words as long as a count of bytes is negative, and give the count
that is left. -/
def fill (bytes : Int) : Exec Int :=
  if bytes < 0 then do
    push 0
    fill (bytes + 4)
  else pure bytes
termination_by (-bytes).toNat
decreasing_by omega

/-- Pop words as long as a count of bytes is positive. -/
def drain (bytes : Int) : Exec Unit :=
  if 0 < bytes then do
    discard pop
    drain (bytes - 4)
  else pure ()
termination_by bytes.toNat
decreasing_by omega

/-- Filling pushes as many words as the bytes need. -/
theorem fill_eq_times (bytes : Int) :
    fill bytes = (do
      times ((-bytes + 3) / 4).toNat (push 0)
      return bytes + 4 * (((-bytes + 3) / 4).toNat : Int)) := by
  fun_induction fill bytes with
  | case1 bytes negative hypothesis =>
    have count : ((-bytes + 3) / 4).toNat = ((-(bytes + 4) + 3) / 4).toNat + 1 := by omega
    have left : bytes + 4 * ((((-(bytes + 4) + 3) / 4).toNat + 1 : Nat) : Int) =
        bytes + 4 + 4 * (((-(bytes + 4) + 3) / 4).toNat : Int) := by omega
    rw [hypothesis, count, left, times, bind_assoc]
  | case2 bytes nonneg =>
    have count : ((-bytes + 3) / 4).toNat = 0 := by omega
    rw [count, times, pure_bind]
    exact congrArg pure (by omega)

/-- Draining pops as many words as the bytes need. -/
theorem drain_eq_times (bytes : Int) :
    drain bytes = times ((bytes + 3) / 4).toNat (discard pop) := by
  fun_induction drain bytes with
  | case1 bytes positive hypothesis =>
    have count : ((bytes + 3) / 4).toNat = ((bytes - 4 + 3) / 4).toNat + 1 := by omega
    rw [hypothesis, count, times]
  | case2 bytes nonpos =>
    have count : ((bytes + 3) / 4).toNat = 0 := by omega
    rw [count, times]

/-- Shifting the stack carries out the two loops. -/
theorem shiftStack_eq (bytes : Int) : shiftStack bytes = fill bytes >>= drain := by
  rw [shiftStack, fill_eq_times, bind_assoc]
  simp only [pure_bind, drain_eq_times]
  split
  next negative =>
    refine congrArg _ (funext fun _ => ?_)
    split
    next =>
      have last : ((bytes + 4 * (((-bytes + 3) / 4).toNat : Int) + 3) / 4).toNat = 1 := by omega
      rw [last, times, times]
      exact (bind_pure_unit).symm
    next =>
      have none : ((bytes + 4 * (((-bytes + 3) / 4).toNat : Int) + 3) / 4).toNat = 0 := by omega
      rw [none, times]
  next nonneg =>
    have none : ((-bytes + 3) / 4).toNat = 0 := by omega
    rw [none, times, pure_bind]
    exact congrArg (fun count => times count (discard pop)) (by omega)

variable {pc fp sp : Int} {memory : Memory} {ambient : Ambient}

/-- The first loop goes down to the word in which the count ends. -/
theorem run_fill {bytes : Int} (stacked : Stacked sp memory ambient) (small : bytes < 4)
    (room : ambient.hp ≤ sp + 4 * (bytes / 4)) :
    ∃ after, Memory.Outside (sp + 4 * (bytes / 4)) sp memory after ∧
      (∀ address, sp + 4 * (bytes / 4) ≤ address → address < sp → after.byte address = 0) ∧
      ∀ steps, (fill bytes).run (.running pc fp sp memory ambient steps) =
        .ok (bytes % 4) (.running pc fp (sp + 4 * (bytes / 4)) after ambient steps) := by
  fun_induction fill bytes generalizing sp memory with
  | case1 bytes negative hypothesis =>
    have top := stacked.top
    have below : ambient.hp ≤ sp - 4 := by omega
    have pushed := Memory.Put.setWord memory (sp - 4) 0
    obtain ⟨after, outside, zero, ran⟩ := hypothesis
      (stacked.moved below (by omega) pushed.outside.size pushed.outside.codeSize) (by omega)
      (by omega)
    have stop : sp - 4 + 4 * ((bytes + 4) / 4) = sp + 4 * (bytes / 4) := by omega
    have left : (bytes + 4) % 4 = bytes % 4 := by omega
    rw [stop] at outside zero ran
    rw [left] at ran
    refine ⟨after, ?_, fun address first last => ?_, fun steps => ?_⟩
    · exact (pushed.intact (by omega)).trans (outside.mono (by omega))
    · -- The rest of the loop writes below the word that has been pushed now.
      by_cases later : address < sp - 4
      · exact zero address first later
      · rw [outside.byte address (.inr (by omega)), Memory.byte_setWord, if_pos (by omega)]
        exact Word.byte_zero (address - (sp - 4)).toNat
    · rw [run_bind_of_ok (run_push below (stacked.addressable below (by omega))), ran]
  | case2 bytes nonneg =>
    have same : sp + 4 * (bytes / 4) = sp := by omega
    have left : bytes % 4 = bytes := by omega
    rw [same, left]
    exact ⟨memory, .refl _ _, by omega, fun _ => rfl⟩

/-- The first loop stops where it would push a word into the heap. -/
theorem run_fill_of_full {bytes : Int} (stacked : Stacked sp memory ambient) (small : bytes < 4)
    (full : sp + 4 * (bytes / 4) < ambient.hp) (steps : Nat) :
    ∃ final, (fill bytes).run (.running pc fp sp memory ambient steps) =
      .error .stackOverflow final := by
  fun_induction fill bytes generalizing sp memory with
  | case1 bytes negative hypothesis =>
    have top := stacked.top
    by_cases below : ambient.hp ≤ sp - 4
    · have pushed := Memory.Put.setWord memory (sp - 4) 0
      rw [run_bind_of_ok (run_push below (stacked.addressable below (by omega)))]
      exact hypothesis
        (stacked.moved below (by omega) pushed.outside.size pushed.outside.codeSize) (by omega)
        (by omega)
    · exact ⟨_, run_bind_of_error (run_push_of_full (by omega))⟩
  | case2 bytes nonneg =>
    have heap := stacked.heap
    omega

/-- Dropping a word of the stack. -/
theorem run_discard_pop (stacked : Stacked sp memory ambient) (inside : sp + 4 ≤ memory.size)
    {steps : Nat} :
    (discard pop).run (.running pc fp sp memory ambient steps) =
      .ok () (.running pc fp (sp + 4) memory ambient steps) :=
  run_bind_of_ok (run_pop stacked inside)

/-- The second loop goes up to the word in which the count ends. -/
theorem run_drain {bytes : Int} (stacked : Stacked sp memory ambient) (large : -4 < bytes)
    (inside : sp - 4 * (-bytes / 4) ≤ memory.size) (steps : Nat) :
    (drain bytes).run (.running pc fp sp memory ambient steps) =
      .ok () (.running pc fp (sp - 4 * (-bytes / 4)) memory ambient steps) := by
  fun_induction drain bytes generalizing sp with
  | case1 bytes positive hypothesis =>
    have stop : sp + 4 - 4 * (-(bytes - 4) / 4) = sp - 4 * (-bytes / 4) := by omega
    rw [run_bind_of_ok (run_discard_pop stacked (by omega)),
      hypothesis (stacked.popped (by omega) (by omega)) (by omega) (by omega), stop]
  | case2 bytes nonpos =>
    have same : sp - 4 * (-bytes / 4) = sp := by omega
    rw [same]
    rfl

/-- The second loop stops at the end of memory. -/
theorem run_drain_of_empty {bytes : Int} (stacked : Stacked sp memory ambient) (large : -4 < bytes)
    (outside : memory.size < sp - 4 * (-bytes / 4)) (steps : Nat) :
    ∃ final, (drain bytes).run (.running pc fp sp memory ambient steps) =
      .error .stackUnderflow final := by
  fun_induction drain bytes generalizing sp with
  | case1 bytes positive hypothesis =>
    by_cases inside : sp + 4 ≤ memory.size
    · rw [run_bind_of_ok (run_discard_pop stacked inside)]
      exact hypothesis (stacked.popped (by omega) inside) (by omega) (by omega)
    · exact ⟨_, run_bind_of_error (run_bind_of_error (run_pop_of_empty (by omega)))⟩
  | case2 bytes nonpos =>
    have top := stacked.top
    omega

/-- A negative shift reserves as many whole words as the count has, and needs room
for one more if there is a rest. -/
theorem run_shiftStack_of_nonpos {bytes : Int} (stacked : Stacked sp memory ambient)
    (nonpos : bytes ≤ 0) (room : ambient.hp ≤ sp + 4 * (bytes / 4)) :
    ∃ after, Memory.Outside (sp + 4 * (bytes / 4)) sp memory after ∧
      (∀ address, sp + 4 * (bytes / 4) ≤ address → address < sp → after.byte address = 0) ∧
      ∀ steps, (shiftStack bytes).run (.running pc fp sp memory ambient steps) =
        .ok () (.running pc fp (sp - 4 * (-bytes / 4)) after ambient steps) := by
  obtain ⟨after, outside, zero, ran⟩ :=
    @run_fill pc fp sp memory ambient bytes stacked (by omega) room
  refine ⟨after, outside, zero, fun steps => ?_⟩
  have top := stacked.top
  have lower := stacked.moved room (by omega) outside.size outside.codeSize
  -- What is left of the count is less than a word, so the second loop pops one word at most.
  have stop : sp + 4 * (bytes / 4) - 4 * (-(bytes % 4) / 4) = sp - 4 * (-bytes / 4) := by omega
  rw [shiftStack_eq, run_bind_of_ok (ran steps),
    run_drain lower (by omega) (by rw [outside.size]; omega), stop]

/-- Moving the stack pointer down fails if it runs into the heap. -/
theorem run_shiftStack_of_full {bytes : Int} (stacked : Stacked sp memory ambient)
    (full : sp + 4 * (bytes / 4) < ambient.hp) (steps : Nat) :
    ∃ final, (shiftStack bytes).run (.running pc fp sp memory ambient steps) =
      .error .stackOverflow final := by
  have heap := stacked.heap
  obtain ⟨final, failed⟩ :=
    @run_fill_of_full pc fp sp memory ambient bytes stacked (by omega) full steps
  exact ⟨final, by rw [shiftStack_eq, run_bind_of_error failed]⟩

/-- A shift that is not negative is left to the second loop. -/
theorem shiftStack_of_nonneg {bytes : Int} (nonneg : 0 ≤ bytes) :
    shiftStack bytes = drain bytes := by
  rw [shiftStack_eq, fill, if_neg (by omega), pure_bind]

/-- A negative shift of the stack by whole words reserves them. -/
theorem run_shiftStack (stacked : Stacked sp memory ambient) (words : Nat) :
    (∃ after, Stacked (sp - 4 * words) after ambient ∧
      Memory.Outside (sp - 4 * words) sp memory after ∧
      ∀ steps, (shiftStack (-(4 * words))).run (.running pc fp sp memory ambient steps) =
        .ok () (.running pc fp (sp - 4 * words) after ambient steps)) ∨
    ∀ steps, ∃ final, (shiftStack (-(4 * words))).run (.running pc fp sp memory ambient steps) =
      .error .stackOverflow final := by
  have low : sp + 4 * (-(4 * (words : Int)) / 4) = sp - 4 * words := by omega
  have stop : sp - 4 * (- -(4 * (words : Int)) / 4) = sp - 4 * words := by omega
  have top := stacked.top
  by_cases room : ambient.hp ≤ sp - 4 * words
  · obtain ⟨after, outside, -, ran⟩ :=
      @run_shiftStack_of_nonpos pc fp sp memory ambient (-(4 * words)) stacked (by omega) (by omega)
    rw [low] at outside
    rw [stop] at ran
    exact .inl ⟨after, stacked.moved room (by omega) outside.size outside.codeSize, outside, ran⟩
  · exact .inr (run_shiftStack_of_full stacked (by omega))

end ScopeStack.Exec
