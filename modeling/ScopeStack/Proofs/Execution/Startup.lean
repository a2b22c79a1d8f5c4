import ScopeStack.Proofs.Execution.Bootstrap
import ScopeStack.Proofs.Execution.Calls

/-!
# How a program starts

The code at address zero runs at a site without frames, `Site.initial`. It gives the
global variables their first words and calls the entry point, whose frame is the first
on the stack. When the entry point returns, the machine exits.
-/

namespace ScopeStack

open Emission Linkage

namespace Site

section Initial

variable {program : Program} {layout : Layout} {rule : Rule} {executable : Executable}
  {link : Linkage} {watch : Watch executable} {site : Site} {count : Nat} {sp start stop : Int}
  {memory : Memory} {ambient : Ambient} (installed : Installed program layout rule executable link)

include installed

/-- The room of a global variable is at least one word long. -/
theorem exists_room (sized : rule.Implies .sized) {declared : VarDef}
    (member : declared ∈ variablesIn program.defs) :
    ∃ access : AbsAccess, layout.accesses[declared.id]? = some (.abs access) ∧ 4 ≤ access.size := by
  obtain ⟨globals, before, after, laid⟩ := installed.laid
  obtain ⟨flat, size, measured, found⟩ := Layout.globalLaid_of_mem_top laid member
  have long := sized.declared _ _ (declared_of_mem_variablesIn installed.obeys member)
  exact ⟨_, found,
    Scope.four_le_of_measure long (installed.arranged.lengthsFit laid member) measured⟩

/-- The code at address zero gets ready to call the entry point. -/
theorem at_start {main : FunDef} (sized : rule.Implies .sized)
    (entry : program.entry? = some main) (noParams : main.params = [])
    (held : link.StartAt (variablesIn program.defs) main stop)
    (sound : (initial executable program layout link stop).Sound executable program layout link
      watch)
    (next : ∀ pc memory, 0 ≤ pc → link.slots[pc]? = some .call →
      link.Holds (pc + 1)
        [.push 0, .push 0, .push (Word.ofInt Service.exit.address), .call] stop →
      Ready program layout rule link (initial executable program layout link stop)
        (.top program.defs) main [] (executable.config.stackTop - 4) memory →
      memory.word (executable.config.stackTop - 4 - 4) = Word.ofInt (link.entry main.id) →
      (∀ declared ∈ variablesIn program.defs,
        memory.word (link.room declared.id) = declared.firstWord) →
      (initial executable program layout link stop).Here executable
        (executable.config.stackTop - 4 - 4) memory ambient →
      watch.At count [] pc executable.config.stackTop (executable.config.stackTop - 4 - 4) memory
        ambient)
    (heap : ambient.hp = executable.dataEnd) :
    watch.At count [] 0 executable.config.stackTop executable.config.stackTop executable.memory
      ambient := by
  obtain ⟨globals, before, after, laid⟩ := installed.laid
  refine at_bootstrap installed.arranged laid installed.slots sound installed.distinct held heap
    fun pc last low fetch ending here initialized top => ?_
  have isTop := (Program.mem_functions_of_entry entry).1
  have staged : (Scope.top program.defs).Staged program layout rule link := rfl
  have rooted := staged.rooted installed isTop
  have parsSize := (rooted.sizes installed.arranged).1
  rw [noParams, List.length_nil] at parsSize
  refine next pc last low fetch ending ?_ top (fun declared member => ?_) here
  · refine ⟨rooted, staged, rfl, List.forall_mem_nil _, fun index base outer _ found => ?_, ?_⟩
    · cases found
    · dsimp only [initial]
      omega
  · obtain ⟨-, words, contents, holds⟩ := initialized declared member
    exact VarDef.word_of_contents contents
      (sized.declared _ _ (declared_of_mem_variablesIn installed.obeys member)) holds

/-- After the entry point has returned the machine exits with code zero. -/
theorem at_finish (sound : site.Sound executable program layout link watch)
    (here : site.Here executable sp memory ambient)
    (covered : site.start ≤ start ∧ stop ≤ site.stop)
    (held : link.Holds start
      [.push 0, .push 0, .push (Word.ofInt Service.exit.address), .call] stop)
    (ends : ∀ state : State, state.input = ambient.input → state.output = ambient.output →
      watch.ends (.exited 0) state) :
    watch.At count site.live start site.fp sp memory ambient := by
  obtain ⟨fetchCode, fetchLink, fetchExit, fetchCall, rfl⟩ := held
  simp only [Opcode.size] at covered fetchLink fetchExit fetchCall
  have below := here.below
  refine at_push installed.slots sound here ⟨covered.1, by omega⟩ fetchCode
    fun first quietFirst code moved => ?_
  refine at_push installed.slots sound moved ⟨by omega, by omega⟩ fetchLink
    fun second quietSecond _ stays => ?_
  refine at_push installed.slots sound stays ⟨by omega, by omega⟩ fetchExit
    fun third quietThird top called => ?_
  have given : third.word (sp - 4 - 4 + 4) = 0 := by
    rw [show sp - 4 - 4 + 4 = sp - 4 by omega, ← code]
    exact (quietSecond.trans (quietThird.mono (by omega))).word fun index low high => .inr (by omega)
  refine at_exit installed sound called ⟨by omega, by omega⟩ fetchCall top (by omega) ?_
  rw [given]
  exact ends

end Initial

end Site

/-- Every function without a body is a service if the functions of the program are. -/
theorem Program.obeys_callsServices {program : Program} {rule : Rule}
    (obeys : program.Obeys rule)
    (services : ∀ function ∈ program.functions, function.isExternal = true →
      (Service.ofName? function.name).isSome) :
    program.Obeys (Rule.callsServices program) := by
  refine DefsObey.mono ⟨fun scope expr _ => ?_, fun _ _ _ => trivial, fun _ _ _ => trivial,
    fun _ _ _ => trivial⟩ obeys
  cases expr with
  | call id name args => exact fun function member external _ => services function member external
  | atom _ _ | var _ _ | unary _ _ _ | binary _ _ _ _ => trivial

/-- A program that compiles and is loaded is installed. -/
theorem exists_installed {program : Program} {rule : Rule} {image : Image} {config : Config}
    {executable : Executable} (distinct : program.Distinct) (plain : program.Obeys .plainNames)
    (obeys : program.Obeys rule) (fits : program.FramesFit)
    (services : ∀ function ∈ program.functions, function.isExternal = true →
      (Service.ofName? function.name).isSome)
    (compiled : program.compile = .ok image) (loaded : image.load config = .ok executable) :
    ∃ layout main link, Layout.ofProgram program = .ok layout ∧ program.entry? = some main ∧
      Linked program layout main image executable link ∧
      Installed program layout rule executable link := by
  obtain ⟨layout, laid, assembled⟩ := Program.compile_eq_ok.mp compiled
  obtain ⟨main, shaped⟩ := shaped_of_ofProgram distinct assembled
  obtain ⟨globals, ready, after, -, top⟩ := Layout.topLaid_of_ofProgram distinct laid
  have calls := Program.obeys_callsServices obeys services
  rw [Image.load] at loaded
  rcases load_image_cases distinct plain laid shaped calls config with
    ⟨other, done, placed⟩ | invalid | ⟨size, large⟩
  · rw [done] at loaded
    cases loaded
    have linked := linked_of_loaded distinct plain laid shaped placed
    exact ⟨layout, main, _, laid, shaped.entry, linked, distinct, obeys, ⟨_, _, _, top⟩,
      fits layout laid, linked.slots, arranged_of_loaded shaped placed, linked.functions,
      linked.service⟩
  · rw [invalid] at loaded
    cases loaded
  · rw [large] at loaded
    cases loaded

end ScopeStack
