import ScopeStack.Proofs.Linking.Loader

/-!
# What a program that loads must have

Loading fails if a label is bound twice or a name cannot be resolved. So a program that has
been loaded has distinct labels, all its names are labels or services, and `loaded_of_load`
puts its code and data in their places without any assumption on where they come from.

The converse for code is `exists_instr_of_slot`: an address holds an instruction only if one
of the code is placed there.
-/

namespace ScopeStack.Executable

/-- The stages of loading, each with its result in the loaded program. -/
structure Stages (config : Config) (code : Code) (data : Data) (executable : Executable) : Prop where
  valid : config.validate = .ok ()
  bound : bindLabels (codeLabels (placeCode 0 code) ++ dataLabels (placeData code.size data)) ∅ =
    .ok executable.labels
  fits : ¬config.stackTop < code.size + data.size
  stored : storeData config.stackTop (placeData code.size data)
    (.zero config.stackTop.toNat code.size) = .ok executable.memory
  filled : fillSlots executable.labels (placeCode 0 code) ∅ = .ok executable.slots
  config_eq : executable.config = config
  dataEnd_eq : executable.dataEnd = (Word.ofInt (code.size + data.size)).toInt

/-- A program is loaded by going through all stages. -/
theorem load_eq_ok_iff {config : Config} {code : Code} {data : Data} {executable : Executable} :
    load config code data = .ok executable ↔ Stages config code data executable := by
  constructor
  · intro loads
    simp only [load, place, bind, Except.bind] at loads
    split at loads
    · cases loads
    next valid =>
      split at loads
      · cases loads
      next labels bound =>
        split at loads
        · cases loads
        next fits =>
          split at loads
          · cases loads
          next memory stored =>
            split at loads
            · cases loads
            next slots filled =>
              cases loads
              exact ⟨valid, bound, fits, stored, filled, rfl, rfl⟩
  · rintro ⟨valid, bound, fits, stored, filled, rfl, dataEnd_eq⟩
    simp only [load, place, valid, bound, if_neg fits, stored, filled, bind, Except.bind]
    rw [← dataEnd_eq]
    rfl

/-- Labels that can be bound are distinct, and were not bound before. -/
theorem nodup_of_bindLabels {places : List (Int × String)} {labels bound : LabelTable}
    (binds : bindLabels places labels = .ok bound) :
    (places.map Prod.snd).Nodup ∧ ∀ name ∈ places.map Prod.snd, labels.contains name = false := by
  induction places generalizing labels with
  | nil => exact ⟨List.nodup_nil, fun _ inside => (nomatch inside)⟩
  | cons first rest hypothesis =>
    obtain ⟨address, name⟩ := first
    rw [bindLabels] at binds
    split at binds
    · cases binds
    next absent =>
      obtain ⟨distinct, others⟩ := hypothesis binds
      refine ⟨List.nodup_cons.mpr ⟨fun inside => ?_, distinct⟩, fun other inside => ?_⟩
      · have unbound := others name inside
        rw [Std.TreeMap.contains_insert_self] at unbound
        cases unbound
      · rcases List.mem_cons.mp inside with rfl | later
        · exact Bool.eq_false_iff.mpr absent
        · have unbound := others other later
          rw [Std.TreeMap.contains_insert, Bool.or_eq_false_iff] at unbound
          exact unbound.2

/-- A step of filling the slots: the instruction has an opcode, or is a label. -/
theorem fillSlots_cons {labels : LabelTable} {address : Int} {instr : Instr}
    {rest : List (Int × Instr)} {slots filled : Std.TreeMap Int Opcode}
    (fills : fillSlots labels ((address, instr) :: rest) slots = .ok filled) :
    (∃ own, opcode labels instr = .ok (some own) ∧
      fillSlots labels rest (slots.insert address own) = .ok filled) ∨
    opcode labels instr = .ok none ∧ fillSlots labels rest slots = .ok filled := by
  rw [fillSlots] at fills
  simp only [bind, Except.bind] at fills
  split at fills
  · cases fills
  next result found =>
    cases result with
    | some own => exact .inl ⟨own, found, fills⟩
    | none => exact .inr ⟨found, fills⟩

/-- Names in code whose slots can be filled can be resolved. -/
theorem resolve_of_fillSlots {labels : LabelTable} {code : Code} {address : Int}
    {slots filled : Std.TreeMap Int Opcode}
    (fills : fillSlots labels (placeCode address code) slots = .ok filled) {target : String}
    (inside : .name target ∈ code.items) : ∃ place, resolve labels target = .ok place := by
  induction code generalizing address slots with
  | nil => cases inside
  | cons line rest hypothesis =>
    have own : ∃ result, opcode labels line.item = .ok result ∧ ∃ later,
        fillSlots labels (placeCode (address + line.item.size) rest) later = .ok filled := by
      rcases fillSlots_cons fills with ⟨own, found, continues⟩ | ⟨found, continues⟩
      · exact ⟨_, found, _, continues⟩
      · exact ⟨_, found, _, continues⟩
    obtain ⟨result, found, later, continues⟩ := own
    rcases List.mem_cons.mp inside with same | further
    · rw [← same, opcode] at found
      cases resolved : resolve labels target with
      | ok place => exact ⟨place, rfl⟩
      | error error =>
        rw [resolved] at found
        cases found
    · exact hypothesis continues further

/-- A name that can be resolved is a label or a service. -/
theorem mem_boundLabels_of_resolve {labels : LabelTable} {names : List String}
    (unbound : ∀ name, name ∉ names → labels[name]? = none) {target : String} {place : Word}
    (resolved : resolve labels target = .ok place) :
    target ∈ names ∨ (Service.ofName? target).isSome := by
  by_cases member : target ∈ names
  · exact .inl member
  · rw [resolve, unbound target member] at resolved
    refine .inr ?_
    cases service : Service.ofName? target with
    | some found => rfl
    | none =>
      rw [service] at resolved
      cases resolved

/-- The code of a program that has been loaded lies at address zero, whatever its data. -/
theorem codeAt_of_load {config : Config} {code : Code} {data : Data} {executable : Executable}
    (loads : load config code data = .ok executable) :
    CodeAt executable.labels executable.slots 0 code.items := by
  obtain ⟨-, bound, -, -, filled, -, -⟩ := load_eq_ok_iff.mp loads
  obtain ⟨labels, same, places, -⟩ := @bindLabels_eq_ok _ ∅ (nodup_of_bindLabels bound).1
    (fun name _ => Std.TreeMap.getElem?_emptyc)
  cases Except.ok.inj (bound.symm.trans same)
  obtain ⟨slots, again, -, placed⟩ := fillSlots_eq_ok
    (fun target inside => resolve_of_fillSlots filled inside)
    (fun place name inside => places place name (List.mem_append_left _ inside)) ∅
  cases Except.ok.inj (filled.symm.trans again)
  exact placed

/-- A program that has been loaded lies in its place. -/
theorem loaded_of_load {config : Config} {code : Code} {data : Data} {executable : Executable}
    (loads : load config code data = .ok executable)
    (sizes : code.size + data.size ≤ Config.maxStackTop →
      ∀ bytes, .size bytes ∈ data.map Located.item → 0 ≤ bytes) :
    Loaded config code.items (data.map Located.item) executable := by
  obtain ⟨-, bound, -, -, filled, -, -⟩ := load_eq_ok_iff.mp loads
  have names : (codeLabels (placeCode 0 code) ++ dataLabels (placeData code.size data)).map
      Prod.snd = boundLabels code.items (data.map Located.item) := by
    rw [List.map_append, map_snd_codeLabels, map_snd_dataLabels, boundLabels]
  have distinct := (nodup_of_bindLabels bound).1
  obtain ⟨labels, same, -, others⟩ := @bindLabels_eq_ok _ ∅ distinct
    (fun name _ => Std.TreeMap.getElem?_emptyc)
  rw [names] at distinct others
  cases Except.ok.inj (bound.symm.trans same)
  have resolvable : ∀ target, .name target ∈ code.items →
      target ∈ boundLabels code.items (data.map Located.item) ∨
        (Service.ofName? target).isSome := by
    intro target inside
    obtain ⟨place, resolved⟩ := resolve_of_fillSlots filled inside
    exact mem_boundLabels_of_resolve
      (fun name absent => (others name absent).trans Std.TreeMap.getElem?_emptyc) resolved
  rcases load_cases config distinct resolvable sizes with
    ⟨other, again, placed⟩ | failed | ⟨size, failed⟩
  · cases Except.ok.inj (loads.symm.trans again)
    exact placed
  · rw [failed] at loads
    cases loads
  · rw [failed] at loads
    cases loads

/-- A slot that has been filled was filled before, or holds an instruction that is placed
there. -/
theorem exists_instr_of_fillSlots {labels : LabelTable} {code : Code} {address : Int}
    {slots filled : Std.TreeMap Int Opcode}
    (fills : fillSlots labels (placeCode address code) slots = .ok filled) {pc : Int}
    {own : Opcode} (found : filled[pc]? = some own) :
    slots[pc]? = some own ∨ ∃ before line after, code = before ++ line :: after ∧
      opcode labels line.item = .ok (some own) ∧ pc = address + Code.size before := by
  induction code generalizing address slots with
  | nil =>
    cases fills
    exact .inl found
  | cons line rest hypothesis =>
    have shifted {other : Std.TreeMap Int Opcode} (place : other[pc]? = some own ∨
        ∃ before next after, rest = before ++ next :: after ∧
          opcode labels next.item = .ok (some own) ∧
          pc = address + line.item.size + Code.size before) :
        other[pc]? = some own ∨ ∃ before next after, line :: rest = before ++ next :: after ∧
          opcode labels next.item = .ok (some own) ∧ pc = address + Code.size before := by
      rcases place with earlier | ⟨before, next, after, rfl, has, rfl⟩
      · exact .inl earlier
      · exact .inr ⟨line :: before, next, after, rfl, has, Int.add_assoc _ _ _⟩
    rcases fillSlots_cons fills with ⟨first, has, continues⟩ | ⟨-, continues⟩
    · rcases shifted (hypothesis continues) with inserted | later
      · rw [Std.TreeMap.getElem?_insert] at inserted
        split at inserted
        next same =>
          cases inserted
          exact .inr ⟨[], line, rest, rfl, has, by
            rw [Code.size, Int.add_zero]
            exact (Std.LawfulEqCmp.eq_of_compare same).symm⟩
        · exact .inl inserted
      · exact .inr later
    · exact shifted (hypothesis continues)

/-- An address of a loaded program holds an instruction only if one of its code is placed
there. -/
theorem exists_instr_of_slot {config : Config} {code : Code} {data : Data}
    {executable : Executable} (loads : load config code data = .ok executable) {pc : Int}
    {own : Opcode} (found : executable.slots[pc]? = some own) :
    ∃ before line after, code = before ++ line :: after ∧
      opcode executable.labels line.item = .ok (some own) ∧ pc = Code.size before := by
  rcases exists_instr_of_fillSlots (load_eq_ok_iff.mp loads).filled found with
    earlier | ⟨before, line, after, split, has, place⟩
  · rw [Std.TreeMap.getElem?_emptyc] at earlier
    cases earlier
  · exact ⟨before, line, after, split, has, by rw [place, Int.zero_add]⟩

end ScopeStack.Executable
