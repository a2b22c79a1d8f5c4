import ScopeStack.Proofs.Execution.Entry

/-!
# What the code of an address computes

Compiled code pushes the address of a variable before it reads or writes the variable. A global
variable has a name for its address. Any other lies at an offset from the base of a frame, which
the code finds by following access links from the frame pointer. `Executable.Designates` says
which address a machine pushes when it carries out such code, wherever the code stands and
whatever is in memory, as long as the links on the way can be read.
-/

namespace ScopeStack

open Emission Executable

namespace Memory

/-- The access links on the way can be read, and none of them lies below an address. -/
def Links (memory : Memory) (floor : Int) : Nat → Int → Prop
  | 0, _ => True
  | hops + 1, base =>
    floor ≤ base ∧ Word.Fits base ∧ memory.Addressable base 4 ∧
      memory.Links floor hops (memory.word base).toInt

/-- The links do not change with what is below them. -/
theorem Links.intact {before after : Memory} {floor : Int} {hops : Nat} {base : Int}
    (links : before.Links floor hops base)
    (same : Intact (fun address => floor ≤ address) before after) :
    after.Links floor hops base ∧ after.follow hops base = before.follow hops base := by
  induction hops generalizing base with
  | zero => exact ⟨trivial, rfl⟩
  | succ hops hypothesis =>
    obtain ⟨above, fits, readable, later⟩ := links
    have word : after.word base = before.word base :=
      same.word fun index low _ => Int.le_trans above low
    obtain ⟨laterLinks, laterSame⟩ := hypothesis later
    refine ⟨⟨above, fits, ⟨?_, ?_⟩, word ▸ laterLinks⟩, ?_⟩
    · rw [same.codeSize]
      exact readable.1
    · rw [same.size]
      exact readable.2
    · rw [follow, follow, word, laterSame]

end Memory

/-- Wherever instructions stand in a program, a machine with given frame, stack and memory
carries them out and has then pushed an address, unless it runs out of stack or of steps. Of its
memory only two words at the end of the stack may have changed. -/
def Executable.Designates (executable : Executable) (instrs : List Instr) (fp sp : Int)
    (memory : Memory) (address : Int) : Prop :=
  ∀ (start : Int) (ambient : Ambient) (steps : Nat),
    CodeAt executable.labels executable.slots start instrs → Stacked sp memory ambient →
    executable.Leads (start + instrsSize instrs)
      (fun last => ∃ after taken,
        last = .running (start + instrsSize instrs) fp (sp - 4) after ambient taken ∧
        after.word (sp - 4) = Word.ofInt address ∧ Memory.Outside (sp - 8) sp memory after)
      (.running start fp sp memory ambient steps)

section Watched

variable {executable : Executable} {fp sp start target : Int} {memory : Memory} {ambient : Ambient}
  {ready : State → Prop} {live : List Activation}

/-- Following access links from a base on top of the stack. -/
theorem at_loads {hops : Nat} {base : Int}
    (placed : CodeAt executable.labels executable.slots start (List.replicate hops .load))
    (short : start + hops ≤ target) (stacked : Stacked sp memory ambient)
    (inside : sp + 4 ≤ memory.size) (top : memory.word sp = Word.ofInt base)
    (links : memory.Links (sp + 4) hops base)
    (next : ∀ after, after.word sp = Word.ofInt (memory.follow hops base) →
      Memory.Outside sp (sp + 4) memory after → Stacked sp after ambient →
      (executable.leading target ready).At 0 live (start + hops) fp sp after ambient) :
    (executable.leading target ready).At 0 live start fp sp memory ambient := by
  induction hops generalizing start memory base with
  | zero =>
    have arrived := next memory top (.refl _ _) stacked
    rwa [Int.natCast_zero, Int.add_zero] at arrived
  | succ hops hypothesis =>
    obtain ⟨⟨_, ⟨⟩, fetch⟩, later⟩ := placed
    obtain ⟨-, fits, readable, further⟩ := links
    have address : (memory.word sp).toInt = base := by rw [top, Word.toInt_ofInt fits]
    refine Watch.at_load stacked (show start ≠ target by omega) fetch inside
      (fun _ after put stays => ?_) fun unreadable => absurd (address ▸ readable) unreadable
    rw [address] at put
    -- the word that is replaced lies below all links that are still to follow
    have above : Memory.Intact (fun index => sp + 4 ≤ index) memory after :=
      put.outside.mono fun index high => .inr high
    obtain ⟨linksAfter, sameEnd⟩ := further.intact above
    refine hypothesis later (by omega) stays (put.outside.size ▸ inside)
      (put.word.trans (Word.ofInt_toInt _).symm) linksAfter fun last word outside ends => ?_
    have arrived := next last (by rw [word, sameEnd, Memory.follow]) (put.outside.trans outside)
      ends
    rwa [show start + ((hops + 1 : Nat) : Int) = start + 1 + hops by omega] at arrived

end Watched

variable {executable : Executable} {fp sp : Int} {memory : Memory}

/-- The name of a global variable designates the address that it stands for. -/
theorem designates_name (label : String) :
    executable.Designates [.name label] fp sp memory (addressOf executable.labels label) := by
  intro start ambient steps placed stacked
  have fetch := slot_of_name placed.1
  have size : instrsSize [.name label] = 5 := rfl
  rw [size]
  refine @Watch.at_push executable (executable.leading (start + 5) _) 0 [] start fp sp memory
    ambient stacked (show start ≠ start + 5 by omega) _ fetch (fun after put _ taken => ?_) steps
  exact .arrived rfl ⟨after, taken, rfl, put.word, put.outside.mono fun index apart => by omega⟩

/-- Every access link that is followed takes one more byte of code. -/
theorem instrsSize_framePointer (hops : Nat) : instrsSize (framePointer hops) = hops + 1 := by
  have loads : instrsSize (List.replicate hops .load) = hops := by
    induction hops with
    | zero => rfl
    | succ hops hypothesis =>
      rw [List.replicate_succ, instrsSize_cons, hypothesis]
      simp only [Instr.size]
      omega
  rw [framePointer, instrsSize_cons, loads]
  simp only [Instr.size]
  omega

/-- The code of a variable in a frame designates the place at its offset, in the frame that its
access links lead to. -/
theorem designates_frame {hops : Nat} {offset : Int} (links : memory.Links sp hops fp) :
    executable.Designates (framePointer hops ++ [.push offset, .binary .add]) fp sp memory
      (memory.follow hops fp + offset) := by
  intro start ambient steps placed stacked
  have size : instrsSize (framePointer hops ++ [.push offset, .binary .add]) = hops + 7 := by
    rw [instrsSize_append, instrsSize_framePointer]
    simp only [instrsSize, Instr.size]
    omega
  rw [codeAt_append, instrsSize_framePointer] at placed
  obtain ⟨⟨⟨_, ⟨⟩, fetchBase⟩, loads⟩, ⟨_, ⟨⟩, fetchOffset⟩, ⟨_, ⟨⟩, fetchAdd⟩, -⟩ := placed
  rw [size]
  have top := stacked.top
  refine @Watch.at_regn executable (executable.leading (start + (hops + 7)) _) 0 [] start fp sp
    memory ambient stacked (show start ≠ start + (hops + 7) by omega) fetchBase
    (fun first put below => ?_) steps
  have above : Memory.Intact (fun index => sp ≤ index) memory first :=
    put.outside.mono fun index high => by omega
  obtain ⟨linksThere, sameBase⟩ := links.intact above
  refine at_loads loads (show start + 1 + hops ≤ _ by omega) below (by rw [above.size]; omega)
    put.word (by rwa [Int.sub_add_cancel]) fun second base outside stays => ?_
  rw [show start + 1 + (hops : Int) = start + (hops + 1) by omega]
  refine Watch.at_push stays (show start + (hops + 1) ≠ _ by omega) fetchOffset
    fun third pushed lower => ?_
  have room : sp - 4 - 4 + 8 ≤ third.size := by
    rw [pushed.outside.size, outside.size, above.size]
    omega
  refine Watch.at_binary lower (show start + (hops + 1) + 5 ≠ _ by omega) fetchAdd room
    (fun value added last more ends taken => ?_) fun undefined => by cases undefined
  have kept : third.word (sp - 4 - 4 + 4) = Word.ofInt (memory.follow hops fp) := by
    rw [pushed.other (by omega), Int.sub_add_cancel, base, sameBase]
  rw [BinaryOp.eval?, kept, pushed.word] at added
  cases added
  rw [Int.sub_add_cancel] at more ⊢
  refine .arrived (by simp only [State.running]; omega) ⟨last, taken, ?_, ?_, ?_⟩
  · rw [show start + (hops + 1) + 5 + 1 = start + ((hops : Int) + 7) by omega]
  · exact more.word.trans (Word.ofInt_add _ _)
  · exact ((put.outside.mono fun index apart => by omega).trans
      (outside.mono fun index apart => by omega)).trans
      ((pushed.outside.mono fun index apart => by omega).trans
        (more.outside.mono fun index apart => by omega))

end ScopeStack
