import ScopeStack.Proofs.Machine.Watch

/-!
# Calling services

A service is called with its address on top of the stack, below it an access
link that it ignores, and below that its argument. Its result takes the place of
all of these. The rules say this for every service but `getstr`, and with which
faults a service can fail.
-/

namespace ScopeStack

/-- The fault is neither an empty stack nor a program counter without an
instruction. -/
def Fault.Regular : Fault → Prop
  | .stackUnderflow => False
  | .invalidPc _ => False
  | _ => True

/-- Faults of memory and of the input are regular. -/
theorem Fault.OfAccess.regular {fault : Fault} (raised : fault.OfAccess) : fault.Regular := by
  cases fault with
  | stackUnderflow => exact raised
  | invalidPc => exact raised
  | _ => trivial

namespace Service

/-- Every service is found at its address. -/
theorem ofAddress?_address (service : Service) : ofAddress? service.address = some service := by
  cases service <;> rfl

/-- Services have addresses that code cannot have. -/
theorem address_neg (service : Service) : service.address < 0 := by
  cases service <;> decide

end Service

namespace Exec

section New

variable {pc fp sp size : Int} {memory : Memory} {ambient : Ambient} {steps : Nat}
  (stacked : Stacked sp memory ambient) (inside : sp + 4 ≤ memory.size)
  (asked : (memory.word sp).toInt = size)

include stacked inside asked

/-- A block whose size is negative, or that would reach into the stack, is
refused. -/
theorem run_new_of_refused (refused : size < 0 ∨ sp + 4 < ambient.hp + size) :
    (serve .new).run (.running pc fp sp memory ambient steps) =
      .error (.heapExhausted size) (.running pc fp (sp + 4) memory ambient steps) := by
  rw [serve, run_bind_of_ok (run_popInt stacked inside), asked]
  refine run_bind_of_error ((run_bind_of_ok run_get).trans ?_)
  exact congrArg (EStateM.run · _) (if_pos refused)

/-- A block that fits is made zero and the heap ends after it. -/
theorem run_new (granted : ¬(size < 0 ∨ sp + 4 < ambient.hp + size)) :
    (serve .new).run (.running pc fp sp memory ambient steps) =
      .ok (some (Word.ofInt ambient.hp)) (.running pc fp (sp + 4)
        (memory.zeroRange ambient.hp size.toNat) { ambient with hp := ambient.hp + size }
        steps) := by
  have cleared : memory.clear ambient.hp size.toNat =
      .ok (memory.zeroRange ambient.hp size.toNat) :=
    if_pos ⟨stacked.code, by omega⟩
  rw [serve, run_bind_of_ok (run_popInt stacked inside), asked]
  refine run_bind_of_ok ((run_bind_of_ok run_get).trans ?_)
  refine (congrArg (EStateM.run · _) (if_neg granted)).trans ?_
  dsimp only [State.running]
  rw [cleared]
  rfl

end New

end Exec

namespace Watch

variable {executable : Executable} {watch : Watch executable} {count : Nat}
  {live : List Activation} {pc fp sp : Int} {memory : Memory} {ambient : Ambient}

section Service

variable {service : Service} (stacked : Stacked sp memory ambient)
  (good : watch.good pc fp memory live) (fetch : executable.slots[pc]? = some .call)
  (inside : sp + 8 ≤ memory.size) (top : (memory.word sp).toInt = service.address)

include fetch top in
/-- A call of a service adds no activation. -/
theorem track_service (steps : Nat) :
    executable.track (.running pc fp sp memory ambient steps) live = live := by
  simp only [Executable.track, State.running, fetch, top]
  exact if_pos service.address_neg

include stacked inside top in
/-- A call of a service drops its address and the access link. -/
theorem run_call_service (steps : Nat) :
    (Exec.execute (pc + 1) .call).run (.running pc fp sp memory ambient steps) = (do
      match ← Exec.serve service with
      | some result =>
        Exec.push result
        Exec.jump (pc + 1)
      | none => pure () : Exec Unit).run (.running pc fp (sp + 8) memory ambient steps) := by
  have higher : Stacked (sp + 4) memory ambient := stacked.popped (by omega) (by omega)
  have linked := @Exec.run_pop pc fp _ _ _ steps higher (by omega)
  rw [show sp + 4 + 4 = sp + 8 by omega] at linked
  rw [Exec.execute, Exec.run_bind_of_ok (Exec.run_popInt stacked (by omega)), top, Exec.callAt,
    if_pos service.address_neg, Service.ofAddress?_address]
  exact Exec.run_bind_of_ok linked

include stacked good fetch inside top

/-- A service with a result. -/
theorem at_service {sp' : Int} {memory' : Memory} {ambient' : Ambient} {result : Word}
    (served : ∀ steps, (Exec.serve service).run (.running pc fp (sp + 8) memory ambient steps) =
      .ok (some result) (.running pc fp sp' memory' ambient' steps))
    (stacked' : Stacked sp' memory' ambient')
    (next : ∀ after, Memory.Put memory' (sp' - 4) result after → Stacked (sp' - 4) after ambient' →
      watch.At (count - 1) live (pc + 1) fp (sp' - 4) after ambient') :
    watch.At count live pc fp sp memory ambient := by
  have upper := stacked'.top
  have call (steps : Nat) := (@run_call_service pc fp _ _ _ _ stacked inside top steps).trans
    (Exec.run_bind_of_ok (served steps))
  by_cases room : ambient'.hp ≤ sp' - 4
  · have put := Memory.Put.setWord memory' (sp' - 4) result
    have below := stacked'.moved room (by omega) put.outside.size put.outside.codeSize
    refine at_of_ok fetch good (track_service fetch top) (fun steps => ?_) (next _ put below)
    exact (call steps).trans
      (Exec.run_bind_of_ok (Exec.run_push room (stacked'.addressable room (by omega))))
  · refine at_of_overflow fetch good fun steps => ?_
    exact ⟨_, (call steps).trans (Exec.run_bind_of_error (Exec.run_push_of_full (by omega)))⟩

/-- A service that fails. -/
theorem at_service_of_error
    (failed : ∀ steps, ∃ fault final,
      (Exec.serve service).run (.running pc fp (sp + 8) memory ambient steps) =
        .error fault final ∧ watch.ends (.faulted fault) final) :
    watch.At count live pc fp sp memory ambient := by
  refine at_of_error fetch good fun steps => ?_
  obtain ⟨fault, final, ran, ends⟩ := failed steps
  exact ⟨fault, final, (run_call_service stacked inside top steps).trans
    (Exec.run_bind_of_error ran), ends⟩

end Service

section Rules

variable (stacked : Stacked sp memory ambient) (good : watch.good pc fp memory live)
  (fetch : executable.slots[pc]? = some .call)

include stacked good fetch

/-- The machine stops with the argument as its exit code. -/
theorem at_exit (inside : sp + 12 ≤ memory.size)
    (top : (memory.word sp).toInt = Service.exit.address)
    (ends : ∀ state : State, state.input = ambient.input → state.output = ambient.output →
      watch.ends (.exited (memory.word (sp + 8)).toInt) state) :
    watch.At count live pc fp sp memory ambient := by
  have higher : Stacked (sp + 8) memory ambient := stacked.popped (by omega) (by omega)
  intro steps
  rcases executable.step_cases fetch steps with ⟨limit, limited, stops⟩ | stepped
  · exact watch.fault good stops (watch.limit limited)
  · have call := @run_call_service pc fp _ _ _ _ stacked (by omega) top (steps + 1)
    have served : (Exec.serve .exit).run (.running pc fp (sp + 8) memory ambient (steps + 1)) =
        .ok none { State.running pc fp (sp + 8 + 4) memory ambient (steps + 1) with
          status := .halted (memory.word (sp + 8)).toInt } :=
      Exec.run_bind_of_ok (Exec.run_popInt higher (by omega))
    have halted := call.trans (Exec.run_bind_of_ok served)
    refine watch.halt good (stepped.trans (Exec.run_bind_of_ok halted)) rfl ?_ (ends _ rfl rfl)
    rw [track_service fetch top]
    exact good

/-- The service that reads a number. -/
theorem at_getint (inside : sp + 8 ≤ memory.size)
    (top : (memory.word sp).toInt = Service.getint.address)
    (next : ∀ value rest, Input.readInt ambient.input = (.ok value, rest) → ∀ after,
      Memory.Put memory (sp + 4) (Word.ofInt value) after →
      Stacked (sp + 4) after { ambient with input := rest } →
      watch.At (count - 1) live (pc + 1) fp (sp + 4) after { ambient with input := rest })
    (failing : ∀ fault rest, Input.readInt ambient.input = (.error fault, rest) →
      ∀ state : State, state.input = rest → state.output = ambient.output →
      watch.ends (.faulted fault) state) :
    watch.At count live pc fp sp memory ambient := by
  have higher : Stacked (sp + 8) memory ambient := stacked.popped (by omega) (by omega)
  obtain ⟨result, rest, found⟩ : ∃ result rest, Input.readInt ambient.input = (result, rest) :=
    ⟨_, _, rfl⟩
  cases result with
  | ok value =>
    have moved : Stacked (sp + 8) memory { ambient with input := rest } :=
      ⟨higher.code, higher.heap, higher.top⟩
    refine at_service stacked good fetch inside top (fun steps => ?_) moved
      (by rw [show sp + 8 - 4 = sp + 4 by omega]; exact next value rest found)
    exact Exec.run_bind_of_ok (Exec.run_read found)
  | error fault =>
    refine at_service_of_error stacked good fetch inside top fun steps =>
      ⟨fault, .running pc fp (sp + 8) memory { ambient with input := rest } steps, ?_,
        failing fault rest found _ rfl rfl⟩
    exact Exec.run_bind_of_error (Exec.run_read_of_error found)

/-- The service that shows a number. -/
theorem at_putint (inside : sp + 12 ≤ memory.size)
    (top : (memory.word sp).toInt = Service.putint.address) {bytes : List UInt8}
    (shown : Utf8.encode (Decimal.render (memory.word (sp + 8)).toInt) = bytes)
    (next : ambient.output.fits bytes = true → ∀ after, Memory.Put memory (sp + 8) 1 after →
      Stacked (sp + 8) after { ambient with output := ambient.output.write bytes } →
      watch.At (count - 1) live (pc + 1) fp (sp + 8) after
        { ambient with output := ambient.output.write bytes })
    (full : ambient.output.fits bytes = false → ∀ state : State, state.input = ambient.input →
      state.output = ambient.output.write bytes → watch.ends (.faulted .outputFull) state) :
    watch.At count live pc fp sp memory ambient := by
  have higher : Stacked (sp + 8) memory ambient := stacked.popped (by omega) (by omega)
  have back : sp + 8 + 4 - 4 = sp + 8 := by omega
  cases fitted : ambient.output.fits bytes with
  | true =>
    have moved : Stacked (sp + 8 + 4) memory
        { ambient with output := ambient.output.write bytes } :=
      ⟨higher.code, by have := higher.heap; dsimp only; omega, by omega⟩
    refine at_service stacked good fetch (by omega) top (fun steps => ?_) moved
      (by rw [back]; exact next fitted)
    rw [Exec.serve, Exec.run_bind_of_ok (Exec.run_popInt higher (by omega)), shown]
    exact Exec.run_bind_of_ok (Exec.run_write fitted)
  | false =>
    refine at_service_of_error stacked good fetch (by omega) top fun steps =>
      ⟨.outputFull, .running pc fp (sp + 8 + 4) memory
        { ambient with output := ambient.output.write bytes } steps, ?_, full fitted _ rfl rfl⟩
    rw [Exec.serve, Exec.run_bind_of_ok (Exec.run_popInt higher (by omega)), shown]
    exact Exec.run_bind_of_error (Exec.run_write_of_full fitted)

/-- Writing the text at an address. Reading it can fail, and so can writing
it. -/
theorem at_putstr (inside : sp + 12 ≤ memory.size)
    (top : (memory.word sp).toInt = Service.putstr.address)
    (next : ∀ output after, Memory.Put memory (sp + 8) 1 after →
      Stacked (sp + 8) after { ambient with output } →
      watch.At (count - 1) live (pc + 1) fp (sp + 8) after { ambient with output })
    (failing : ∀ fault : Fault, fault.Regular → ∀ state, watch.ends (.faulted fault) state) :
    watch.At count live pc fp sp memory ambient := by
  have higher : Stacked (sp + 8) memory ambient := stacked.popped (by omega) (by omega)
  have heap := higher.heap
  have back : sp + 8 + 4 - 4 = sp + 8 := by omega
  have served (steps : Nat) : (Exec.serve .putstr).run
      (.running pc fp (sp + 8) memory ambient steps) = (do
        let text ← Exec.ofExcept (Exec.textAt memory (memory.word (sp + 8)).toInt)
        Exec.write (Utf8.encode text)
        return some 1 : Exec (Option Word)).run
        (.running pc fp (sp + 8 + 4) memory ambient steps) := by
    rw [Exec.serve, Exec.run_bind_of_ok (Exec.run_popInt higher (by omega)),
      Exec.run_bind_of_ok Exec.run_get]
    rfl
  cases found : Exec.textAt memory (memory.word (sp + 8)).toInt with
  | error fault =>
    rw [found] at served
    refine at_service_of_error stacked good fetch (by omega) top fun steps =>
      ⟨fault, _, (served steps).trans (Exec.run_bind_of_error rfl),
        failing fault (Exec.ofAccess_of_textFrom found).regular _⟩
  | ok text =>
    rw [found] at served
    cases fitted : ambient.output.fits (Utf8.encode text) with
    | false =>
      refine at_service_of_error stacked good fetch (by omega) top fun steps =>
        ⟨.outputFull, _, (served steps).trans ((Exec.run_bind_of_ok rfl).trans
          (Exec.run_bind_of_error (Exec.run_write_of_full fitted))), failing .outputFull trivial _⟩
    | true =>
      have moved : Stacked (sp + 8 + 4) memory
          { ambient with output := ambient.output.write (Utf8.encode text) } :=
        ⟨higher.code, by dsimp only; omega, by omega⟩
      refine at_service stacked good fetch (by omega) top (fun steps => ?_) moved
        (by rw [back]; exact next _)
      exact (served steps).trans ((Exec.run_bind_of_ok rfl).trans
        (Exec.run_bind_of_ok (Exec.run_write fitted)))

/-- Reserving a block of the heap changes memory between the heap and the stack
alone. -/
theorem at_new (inside : sp + 12 ≤ memory.size)
    (top : (memory.word sp).toInt = Service.new.address)
    (next : ∀ hp after, ambient.hp ≤ hp →
      Memory.Outside ambient.hp (sp + 12) memory after →
      Stacked (sp + 8) after { ambient with hp } →
      watch.At (count - 1) live (pc + 1) fp (sp + 8) after { ambient with hp })
    (failing : ∀ size state, watch.ends (.faulted (.heapExhausted size)) state) :
    watch.At count live pc fp sp memory ambient := by
  have higher : Stacked (sp + 8) memory ambient := stacked.popped (by omega) (by omega)
  have heap := higher.heap
  have code := higher.code
  have back : sp + 8 + 4 - 4 = sp + 8 := by omega
  obtain ⟨size, asked⟩ : ∃ size, (memory.word (sp + 8)).toInt = size := ⟨_, rfl⟩
  by_cases refused : size < 0 ∨ sp + 8 + 4 < ambient.hp + size
  · exact at_service_of_error stacked good fetch (by omega) top fun steps =>
      ⟨.heapExhausted size, .running pc fp (sp + 8 + 4) memory ambient steps,
        Exec.run_new_of_refused higher (by omega) asked refused, failing _ _⟩
  · have outside : Memory.Outside ambient.hp (sp + 12) memory
        (memory.zeroRange ambient.hp size.toNat) :=
      ⟨rfl, rfl, fun address apart => by rw [Memory.byte_zeroRange, if_neg (by omega)]⟩
    have moved : Stacked (sp + 8 + 4) (memory.zeroRange ambient.hp size.toNat)
        { ambient with hp := ambient.hp + size } :=
      ⟨by dsimp only [Memory.codeSize_zeroRange]; omega, by dsimp only; omega,
        by rw [Memory.size_zeroRange]; omega⟩
    refine at_service stacked good fetch (by omega) top
      (fun steps => Exec.run_new higher (by omega) asked refused) moved fun after put below => ?_
    rw [back] at put below ⊢
    exact next _ after (by omega) (outside.trans (put.intact (by omega))) below

/-- The service that takes a block back, which does nothing. -/
theorem at_del (inside : sp + 12 ≤ memory.size)
    (top : (memory.word sp).toInt = Service.del.address)
    (next : ∀ after, Memory.Put memory (sp + 8) 1 after → Stacked (sp + 8) after ambient →
      watch.At (count - 1) live (pc + 1) fp (sp + 8) after ambient) :
    watch.At count live pc fp sp memory ambient := by
  have higher : Stacked (sp + 8) memory ambient := stacked.popped (by omega) (by omega)
  have highest : Stacked (sp + 8 + 4) memory ambient := stacked.popped (by omega) (by omega)
  have back : sp + 8 + 4 - 4 = sp + 8 := by omega
  refine at_service stacked good fetch (by omega) top (fun steps => ?_) highest
    (by rw [back]; exact next)
  exact Exec.run_bind_of_ok (Exec.run_pop higher (by omega))

end Rules

end Watch

end ScopeStack
