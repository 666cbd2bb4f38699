import Coro.Machine.Bench
import Coro.Proofs.Machine.Invariant
import Coro.Proofs.Program.WellFormed

/-!
Runs stay within the tables of their program.

Everything that code refers to is in a table, and no run changes how many entries a table has. So no
lookup of a run fails, whatever the host answers.
-/

namespace Coro

variable {id : CoroutineId} {arg : Int64} {args : List Int64} {locals : List Local} {known : Local}
  {program : Program} {slot : Slot}

/-- All that a body with some local variables can find in a model. -/
def Model.references (model : Model) (locals : List Local) : References where
  var
    | .static id => id < model.statics.length
    | .localVar id => id < locals.length
    | .external id => id < model.externals.length
  callee
    | .function id => id < model.functions.length
    | .external id => id < model.externals.length
  subroutine id := id < model.coroutines.length

/-- Everything that a program refers to is in its tables. -/
structure Program.Closed (program : Program) : Prop where
  code : ∀ owner code, program.code? owner = some code →
    ∃ body, program.model.body? owner = some body ∧
      ∀ instr ∈ code, instr.Refers (program.model.references (body.framed owner))
  coroutines : program.coroutines.length = program.model.coroutines.length
  functions : program.functions.length = program.model.functions.length
  hooks : program.hooks.length = program.model.hooks.length
  /-- The parameters of a function are local variables, and no arrays. -/
  parameters : ∀ function ∈ program.model.functions, ∀ id < function.arity,
    (function.locals.map Local.length)[id]? = some none

namespace Model

variable {model : Model} {program : Program} {owner : Owner} {body : Body}

theorem hoist_body? (owner : Owner) : model.hoist.body? owner = model.body? owner := by
  cases owner <;> rfl

theorem static_inRange {id : StaticId} (declared : id < model.statics.length) :
    id < model.hoist.statics.length := by
  rw [hoist, List.length_append]
  exact Nat.lt_of_lt_of_le declared (Nat.le_add_right _ _)

/-- The code of a body finds in the tables all that a well-formed body can refer to. -/
theorem WellFormed.grants (formed : model.WellFormed) (found : model.body? owner = some body)
    (valued : Bool) :
    (model.contextOf owner).Grants
      (BodySetting.references
        ⟨model.shapes, body.locals.map Local.length, owner.coroutine?, valued⟩)
      (model.hoist.references (body.framed owner)) := by
  refine ⟨⟨?_, ?_⟩, ?_, ?_⟩
  · intro var usable
    obtain ⟨indexed, allowed⟩ := usable
    cases var with
    | static id =>
      -- Declared variables keep their places in every context.
      have inside := static_inRange (static_declared allowed)
      cases owner <;> exact inside
    | localVar id =>
      have declared : id < body.locals.length := by simpa using Shapes.local_declared allowed
      cases owner with
      | coroutine place =>
        -- The variable of a coroutine has become a static one.
        obtain ⟨coroutine, known, rfl⟩ := Option.map_eq_some_iff.mp found
        have kept := hoist_local known (List.getElem?_eq_getElem declared)
        rw [contextOf_local known declared]
        exact (List.getElem?_eq_some_iff.mp kept).1
      | _ => exact declared
    | external id =>
      obtain ⟨⟨type, volatile, listed⟩, -⟩ := allowed
      have declared : id < model.externals.length := by
        simpa [shapes] using (List.getElem?_eq_some_iff.mp listed).1
      cases owner <;> exact declared
  · intro callee taken
    obtain ⟨count, used, taken⟩ := taken
    cases callee with
    | function id =>
      obtain ⟨function, listed, -⟩ := taken
      simpa [references, shapes, hoist] using (List.getElem?_eq_some_iff.mp listed).1
    | external id =>
      simpa [references, shapes, hoist] using (List.getElem?_eq_some_iff.mp taken).1
  · intro callee possible
    obtain ⟨caller, count, -, calling, called, parent, -, listed, -⟩ := possible
    simpa [references, shapes, hoist] using (List.getElem?_eq_some_iff.mp listed).1
  · intro callee _ parameter member
    rw [contextOf_parameters] at member
    exact static_inRange (static_declared (formed.parameters_static [] callee parameter member))

/-- The program of a well-formed model refers to its own tables only. -/
theorem LowersTo.closed (lowered : model.LowersTo program) (formed : model.WellFormed) :
    program.Closed where
  code := by
    intro owner code found
    obtain ⟨body, known, -⟩ := lowered.code?_eq found
    obtain ⟨valued, statements⟩ := formed.statementsOf known
    rw [lowered.hoisted, hoist_body?]
    exact ⟨body, known, lowered.refers found known statements.refers (formed.grants known valued)⟩
  coroutines := by rw [lowered.length_coroutines, lowered.hoisted]; rfl
  functions := by rw [lowered.functions, List.length_map, lowered.hoisted]; rfl
  hooks := by rw [lowered.hooks, List.length_map, lowered.hoisted]; rfl
  parameters := by
    intro function member
    rw [lowered.hoisted] at member
    exact (formed.functions function member).parameters

end Model

/-- Every program that is linked refers to its own tables only. -/
theorem Source.link_closed {source : Source} {warnings : List (Located Warning)}
    (linked : source.link = .ok (program, warnings)) : program.Closed := by
  obtain ⟨description, resolved, -, meant, lowered, -⟩ := link_eq_ok linked
  obtain ⟨tables, complete, known⟩ := Ast.Description.resolve_tables meant
  exact (Model.lower_lowersTo lowered).closed (Tables.toModel?_wellFormed complete known)

/-! ## Sizes -/

namespace Memory

/-- How many values each variable has. -/
def sizes (memory : Memory) : List Nat :=
  memory.toList.map Array.size

variable {memory : Memory} {id size : Nat}

@[simp] theorem sizes_write (memory : Memory) (id index : Nat) (value : Int64) :
    (memory.write id index value).sizes = memory.sizes := by
  apply List.ext_getElem?
  intro place
  -- Only one variable is touched, and it gets a value in place of another.
  simp only [sizes, write, List.getElem?_map, Array.getElem?_toList, Array.getElem?_modify]
  split
  · cases memory[place]? <;> simp
  · rfl

theorem cells_of_sizes (known : memory.sizes[id]? = some size) :
    ∃ cells, memory[id]? = some cells ∧ cells.size = size := by
  simpa [sizes] using known

theorem read?_of_sizes (known : memory.sizes[id]? = some size) {index : Nat}
    (inside : index < size) : ∃ value, memory.read? id index = some value := by
  obtain ⟨cells, found, rfl⟩ := cells_of_sizes known
  exact ⟨cells[index], by simp [read?, found, inside]⟩

end Memory

/-- Arguments for variables that are no arrays leave all variables as large as they are declared. -/
theorem sizes_argumentCells
    (plain : ∀ id < args.length, (locals.map Local.length)[id]? = some none) :
    (argumentCells locals args).map Array.size = locals.map Local.size := by
  induction locals generalizing args with
  | nil => rfl
  | cons known rest ih =>
    cases args with
    | nil => simp [argumentCells, ih]
    | cons arg args =>
      have first : known.length = none := by simpa using plain 0 (by simp)
      have later : (argumentCells rest args).map Array.size = rest.map Local.size :=
        ih fun id small => by simpa using plain (id + 1) (by simpa using small)
      simp [argumentCells, later, Local.size, first]

/-- Each argument for a variable that is no array is found there, made to fit. -/
theorem read?_argumentCells {id : Nat} (listed : locals[id]? = some known)
    (given : args[id]? = some arg) :
    Memory.read? (argumentCells locals args).toArray id 0 = some (known.type.wrap arg) := by
  induction locals generalizing args id with
  | nil => exact nomatch listed
  | cons first rest ih =>
    cases args with
    | nil => exact nomatch given
    | cons head args =>
      cases id with
      | zero =>
        obtain rfl : first = known := by simpa using listed
        obtain rfl : head = arg := by simpa using given
        rfl
      | succ id =>
        have later := ih (by simpa using listed) (by simpa using given)
        simpa [Memory.read?, argumentCells] using later

/-- The tables of a machine are as large as its program says. -/
structure Machine.Sized {σ : Type} (program : Program) (machine : Machine σ) : Prop where
  statics : machine.statics.sizes = program.model.statics.map StaticVariable.size
  states : machine.states.size = program.model.coroutines.length

/-- The local variables of a running body are as large as they are declared. -/
structure Frame.Sized (declared : List Local) (frame : Frame) : Prop where
  locals : frame.locals = declared
  memory : frame.memory.sizes = declared.map Local.size

/-- A slot is one of a variable in the tables, at an index that it has. -/
def Slot.InRange (program : Program) (locals : List Local) : Slot → Prop
  | .static id index => ∃ storage, program.model.statics[id]? = some storage ∧ index < storage.size
  | .localVar id index => ∃ known, locals[id]? = some known ∧ index < known.size
  | .external id => id < program.model.externals.length

theorem Machine.Sized.size {σ : Type} {machine : Machine σ} (sized : machine.Sized program)
    {id : StaticId} {storage : StaticVariable}
    (listed : program.model.statics[id]? = some storage) :
    machine.statics.sizes[id]? = some storage.size := by
  rw [sized.statics, List.getElem?_map, listed]
  rfl

theorem Frame.Sized.size {frame : Frame} (fits : frame.Sized locals) {id : LocalId}
    (listed : locals[id]? = some known) : frame.memory.sizes[id]? = some known.size := by
  rw [fits.memory, List.getElem?_map, listed]
  rfl

theorem Frame.enter_sized (plain : ∀ id < args.length, (locals.map Local.length)[id]? = some none) :
    (Frame.enter locals args).Sized locals :=
  ⟨rfl, by simpa [Frame.enter, Memory.sizes] using sizes_argumentCells plain⟩

namespace Exec

variable {σ : Type} {program : Program} {locals : List Local} {frame : Frame}

/-- A run that finds tables of the right sizes leaves them so, and finds all that it looks up. -/
def InRange (program : Program) {α : Type} (run : Exec σ α) (post : α → Prop) : Prop :=
  Keeps (Machine.Sized program) (· ≠ .dangling) run post

theorem sized_lasting : Machine.Lasting (σ := σ) (Machine.Sized program) := by
  intro before after statics states _ sized
  exact ⟨statics ▸ sized.statics, states ▸ sized.states⟩

theorem inRange_law : Law (σ := σ) (InRange program) (· ≠ .dangling) :=
  Keeps.law sized_lasting.level (fun _ => nofun) nofun

/-- A variable in the tables has the slot at an index, or faults. -/
theorem locate_inRange (fits : frame.Sized locals) {var : Var} (index : Int64)
    (granted : (program.model.references locals).var var) :
    InRange (σ := σ) program (locate program.model frame var index)
      (Slot.InRange program locals) := by
  have law : Law (σ := σ) (InRange program) (· ≠ .dangling) := inRange_law
  -- All tables have the variable, so only the index can be wrong.
  cases var with
  | static id =>
    refine law.require (fun missing => ?_) fun storage listed => Keeps.get fun machine sized => ?_
    · exact absurd granted (Nat.not_lt.mpr (List.getElem?_eq_none_iff.mp missing))
    obtain ⟨cells, found, size⟩ := Memory.cells_of_sizes (sized.size listed)
    rw [found, require_some, pure_bind]
    exact law.bind (law.checkIndex _ _ _) fun inside small =>
      law.pure ⟨storage, listed, by omega⟩
  | localVar id =>
    simp only [locate, fits.locals]
    refine law.require (fun missing => ?_) fun known listed => ?_
    · exact absurd granted (Nat.not_lt.mpr (List.getElem?_eq_none_iff.mp missing))
    obtain ⟨cells, found, size⟩ := Memory.cells_of_sizes (fits.size listed)
    rw [found, require_some, pure_bind]
    exact law.bind (law.checkIndex _ _ _) fun inside small =>
      law.pure ⟨known, listed, by omega⟩
  | external id => exact law.pure granted

theorem modifyHost_inRange {α : Type} (change : Machine σ → α × Machine σ)
    (same : ∀ machine, (change machine).2.statics = machine.statics ∧
      (change machine).2.states = machine.states) :
    InRange program (modifyGet change) fun _ => True := by
  intro machine sized
  obtain ⟨statics, states⟩ := same machine
  exact ⟨⟨statics ▸ sized.statics, states ▸ sized.states⟩, trivial⟩

variable [Host σ]

/-- A slot in range has a value. -/
theorem load_inRange (fits : frame.Sized locals) (inside : slot.InRange program locals) :
    InRange (σ := σ) program (load program.model frame slot) fun _ => True := by
  have law : Law (σ := σ) (InRange program) (· ≠ .dangling) := inRange_law
  cases slot with
  | static id index =>
    obtain ⟨storage, listed, small⟩ := inside
    refine Keeps.get fun machine sized => ?_
    obtain ⟨value, found⟩ := Memory.read?_of_sizes (sized.size listed) small
    rw [found, require_some]
    exact law.pure trivial
  | localVar id index =>
    obtain ⟨known, listed, small⟩ := inside
    obtain ⟨value, found⟩ := Memory.read?_of_sizes (fits.size listed) small
    rw [load, found, require_some]
    exact law.pure trivial
  | external id =>
    rw [load, List.getElem?_eq_getElem inside, require_some, pure_bind]
    exact law.bind (modifyHost_inRange _ fun _ => ⟨rfl, rfl⟩) fun _ _ => law.pure trivial

/-- A value can be stored in a slot in range. -/
theorem store_inRange (fits : frame.Sized locals) (inside : slot.InRange program locals)
    (value : Int64) :
    InRange (σ := σ) program (store program.model frame slot value) (Frame.Sized locals) := by
  have law : Law (σ := σ) (InRange program) (· ≠ .dangling) := inRange_law
  cases slot with
  | static id index =>
    obtain ⟨storage, listed, small⟩ := inside
    rw [store, listed, require_some, pure_bind]
    refine Keeps.get fun machine sized => ?_
    obtain ⟨old, found⟩ := Memory.read?_of_sizes (sized.size listed) small
    rw [found, require_some, pure_bind]
    -- A value takes the place of another, so nothing grows or shrinks.
    have written : InRange (σ := σ) program (modify fun machine => { machine with
        statics := machine.statics.write id index (storage.type.wrap value) }) fun _ => True :=
      fun _ sized => ⟨⟨by simpa using sized.statics, sized.states⟩, trivial⟩
    exact law.bind written fun _ _ => law.pure fits
  | localVar id index =>
    obtain ⟨known, listed, small⟩ := inside
    obtain ⟨old, found⟩ := Memory.read?_of_sizes (fits.size listed) small
    rw [store, fits.locals, listed, require_some, pure_bind, found, require_some, pure_bind]
    exact law.pure ⟨rfl, by simpa using fits.memory⟩
  | external id =>
    rw [store, List.getElem?_eq_getElem inside, require_some, pure_bind]
    exact law.bind (modifyHost_inRange _ fun _ => ⟨rfl, rfl⟩) fun _ _ => law.pure fits

omit [Host σ] in
theorem state_inRange (known : id < program.model.coroutines.length) :
    InRange (σ := σ) program (state id) fun _ => True := by
  refine Keeps.get fun machine sized => ?_
  have small : id < machine.states.size := sized.states ▸ known
  rw [Array.getElem?_eq_getElem small, require_some]
  exact inRange_law.pure trivial

omit [Host σ] in
theorem setState_inRange (known : id < program.model.coroutines.length) (value : Nat) :
    InRange (σ := σ) program (setState id value) fun _ => True := by
  refine inRange_law.bind (state_inRange known) fun _ _ => ?_
  exact fun machine sized => ⟨⟨sized.statics, by simpa using sized.states⟩, trivial⟩

/-- What can be started finds all that it looks up. -/
structure CalleesInRange (program : Program) (callees : Callees σ) : Prop where
  function : ∀ id args, id < program.model.functions.length →
    InRange program (callees.function id args) fun _ => True
  coroutine : ∀ id, id < program.model.coroutines.length →
    InRange program (callees.coroutine id) fun _ => True

section Started

variable {callees : Callees σ} {own : Option CoroutineId} (closed : program.Closed)
  (inner : CalleesInRange program callees)

include closed inner

/-- An instruction that refers to the tables finds all that it looks up. -/
theorem execute_inRange (self : ∀ id, own = some id → id < program.model.coroutines.length)
    {instr : Instr} (refers : instr.Refers (program.model.references locals))
    (fits : frame.Sized locals) :
    InRange program (execute program callees own frame instr) fun result =>
      result.2.Sized locals := by
  have law : Law (σ := σ) (InRange program) (· ≠ .dangling) := inRange_law
  have listed : ∀ id, (program.model.references locals).subroutine id ∨ own = some id →
      id < program.model.coroutines.length := fun id known => known.elim (·) (self id)
  have reads : Reads (InRange program) program.model callees (Frame.Sized locals)
      (Slot.InRange program locals) (program.model.references locals) := by
    refine ⟨fun _ _ index fits granted => locate_inRange fits index granted,
      fun _ _ fits inside => load_inRange fits inside, inner.function, fun id args known => ?_⟩
    rw [List.getElem?_eq_getElem known, require_some, pure_bind]
    exact modifyHost_inRange _ fun _ => ⟨rfl, rfl⟩
  have drives : Drives (InRange program) (· ≠ .dangling) program callees own
      (program.model.references locals) := by
    refine ⟨inner.coroutine, fun id known => ?_, fun id known => state_inRange (listed id known),
      fun id value known => setState_inRange (listed id known) value⟩
    -- There is a state machine for each coroutine.
    have small := listed id known
    refine ⟨fun missing => ?_, fun missing => ?_⟩
    · rw [List.getElem?_eq_none_iff, closed.coroutines] at missing
      exact absurd small (Nat.not_lt.mpr missing)
    · exact absurd small (Nat.not_lt.mpr (List.getElem?_eq_none_iff.mp missing))
  exact law.execute reads (fun _ _ value fits inside => store_inRange fits inside value) drives
    fits refers

/-- A body whose code refers to the tables finds all that it looks up. -/
theorem runBody_inRange {code : Code}
    (refers : ∀ instr ∈ code, instr.Refers (program.model.references locals)) (fuel : Nat)
    (plain : ∀ id < args.length, (locals.map Local.length)[id]? = some none) :
    InRange program (runBody program fuel callees locals code args) fun _ => True := by
  refine inRange_law.runBody (fun instr member frame fits => ?_) fuel (Frame.enter_sized plain)
  -- No state is its own.
  have self : ∀ id, none = some id → id < program.model.coroutines.length := nofun
  exact execute_inRange closed inner self (refers instr member) fits

/-- A function of the program finds all that it looks up. -/
theorem runFunction_inRange (fuel : Nat) {id : FunctionId}
    (known : id < program.model.functions.length) (args : List Int64) :
    InRange program (runFunction program fuel callees id args) fun _ => True := by
  obtain ⟨code, made⟩ : ∃ code, program.functions[id]? = some code :=
    ⟨_, List.getElem?_eq_getElem (closed.functions ▸ known)⟩
  obtain ⟨body, same, refers⟩ := closed.code (.function id) code made
  obtain ⟨function, found, rfl⟩ := Option.map_eq_some_iff.mp same
  rw [runFunction, found, require_some, pure_bind, made, require_some, pure_bind]
  -- No more arguments are passed than there are parameters.
  have plain : ∀ place < (args.take function.arity).length,
      (function.locals.map Local.length)[place]? = some none := by
    intro place small
    rw [List.length_take] at small
    exact closed.parameters function (List.mem_of_getElem? found) place (by omega)
  exact inRange_law.bind (runBody_inRange closed inner refers fuel plain) fun _ _ =>
    inRange_law.pure trivial

/-- A coroutine of the program finds all that it looks up. -/
theorem runCoroutine_inRange (fuel : Nat) (known : id < program.model.coroutines.length) :
    InRange program (runCoroutine program fuel callees id) fun _ => True := by
  have self : ∀ place, some id = some place → place < program.model.coroutines.length :=
    fun place same => Option.some.inj same ▸ known
  -- It has no local variables of its own while it runs.
  have none : (Frame.enter [] []).Sized [] := Frame.enter_sized nofun
  refine inRange_law.runCoroutine (fun missing => ?_) (state_inRange known)
    (fun machine listed instr member frame fits => ?_) fuel none
  · rw [List.getElem?_eq_none_iff, closed.coroutines] at missing
    exact absurd known (Nat.not_lt.mpr missing)
  · obtain ⟨body, -, refers⟩ := closed.code (.coroutine id) machine.code
      (Option.map_eq_some_iff.mpr ⟨machine, listed, rfl⟩)
    exact execute_inRange closed inner self (refers instr member) fits

end Started

/-- However many bodies can be started inside each other, all find what they look up. -/
theorem callees_inRange (closed : program.Closed) (fuel levels : Nat) :
    CalleesInRange (σ := σ) program (Exec.callees program fuel levels) := by
  induction levels with
  | zero =>
    exact ⟨fun _ _ _ => inRange_law.throw nofun, fun _ _ => inRange_law.throw nofun⟩
  | succ levels ih =>
    exact ⟨fun _ args known => runFunction_inRange closed ih fuel known args,
      fun _ known => runCoroutine_inRange closed ih fuel known⟩

/-- Everything that the scheduler starts finds what it looks up. -/
theorem operates_inRange (closed : program.Closed) (fuel : Nat) :
    Operates (σ := σ) (Machine.Sized program) (· ≠ .dangling) program fuel := by
  have inner := callees_inRange (σ := σ) closed fuel maxDepth
  -- Hooks and the entry point are given no arguments.
  have plain : ∀ locals : List Local, ∀ id < ([] : List Int64).length,
      (locals.map Local.length)[id]? = some none := by
    intro locals id small
    exact absurd small (Nat.not_lt_zero id)
  refine ⟨fun id hook listed => ?_, ?_, fun id member => ?_⟩
  · obtain ⟨code, made⟩ : ∃ code, program.hooks[id]? = some code :=
      ⟨_, List.getElem?_eq_getElem (closed.hooks ▸ (List.getElem?_eq_some_iff.mp listed).1)⟩
    obtain ⟨body, same, refers⟩ := closed.code (.hook id) code made
    obtain ⟨other, found, rfl⟩ := Option.map_eq_some_iff.mp same
    obtain rfl := Option.some.inj (listed.symm.trans found)
    have body : InRange (σ := σ) program (Exec.hook program fuel id) fun _ => True := by
      rw [Exec.hook, hookWith, listed, require_some, pure_bind, made, require_some, pure_bind]
      exact inRange_law.bind (runBody_inRange closed inner refers fuel (plain _)) fun _ _ =>
        inRange_law.pure trivial
    exact body
  · obtain ⟨body, same, refers⟩ := closed.code .entry _ rfl
    obtain rfl := Option.some.inj same
    exact runBody_inRange closed inner refers fuel (plain _)
  · obtain ⟨coroutine, listed, -⟩ := Model.mem_threads.mp member
    exact runCoroutine_inRange closed inner fuel (List.getElem?_eq_some_iff.mp listed).1

end Exec

theorem Machine.start_sized {σ : Type} (closed : program.Closed) (host : σ) :
    (Machine.start program host).Sized program where
  statics := by simp [Machine.start, initialMemory, Memory.sizes, Function.comp_def]
  states := by simp [Machine.start, closed.coroutines]

/-- Every variable may be referred to but a local one. -/
def References.withoutLocals : References where
  var var := ∀ id, var ≠ .localVar id
  callee _ := True
  subroutine _ := True

namespace Program.Closed

variable {program : Program} (closed : program.Closed)

include closed

/-- A coroutine refers to no local variable: while it runs, it has none. -/
theorem coroutine_refers {self : CoroutineId} {machine : StateMachine}
    (found : program.coroutines[self]? = some machine) :
    ∀ instr ∈ machine.code, instr.Refers .withoutLocals := by
  obtain ⟨body, -, refers⟩ := closed.code (.coroutine self) machine.code
    (Option.map_eq_some_iff.mpr ⟨machine, found, rfl⟩)
  have within : (program.model.references []).Within .withoutLocals id := by
    refine ⟨fun var granted id same => ?_, fun _ _ => trivial⟩
    subst same
    exact Nat.not_lt_zero id granted
  exact fun instr member => (refers instr member).mono within fun _ _ _ => trivial

/-- A function finds each argument in the slot of its parameter. -/
theorem parameter_slot {function : Function} (member : function ∈ program.model.functions)
    {place : Nat} (small : place < function.arity) (given : args[place]? = some arg) :
    ∃ known, function.locals[place]? = some known ∧
      (Frame.enter function.locals (args.take function.arity)).memory.read? place 0 =
        some (known.type.wrap arg) := by
  have listed := closed.parameters function member place small
  rw [List.getElem?_map] at listed
  obtain ⟨known, found, -⟩ := Option.map_eq_some_iff.mp listed
  refine ⟨known, found, read?_argumentCells found ?_⟩
  rw [List.getElem?_take_of_lt small, given]

end Program.Closed

namespace Machine

variable {σ : Type} [Host σ]

/--
A linked program finds all that it looks up, however it is operated and whatever the host answers.

The code of coroutines refers to no local variable, and the arguments of functions are found in the
slots of their parameters. Besides faults, an operation can only be given too few instructions.
-/
theorem lookups_stay_in_range {source : Source} {program : Program}
    {warnings : List (Located Warning)} (linked : source.link = .ok (program, warnings)) (host : σ)
    (operations : List (Nat × Command)) :
    (∀ (id : CoroutineId) code, program.coroutines[id]? = some code →
      ∀ instr ∈ code.code, instr.Refers .withoutLocals) ∧
    (∀ function ∈ program.model.functions, ∀ (args : List Int64) place arg,
      place < function.arity → args[place]? = some arg →
      ∃ known, function.locals[place]? = some known ∧
        (Frame.enter function.locals (args.take function.arity)).memory.read? place 0 =
          some (known.type.wrap arg)) ∧
    (∀ halt ∈ (start program host).halts program operations,
      halt = .outOfFuel ∨ ∃ fault, halt = .fault fault) ∧
    ((start program host).after program operations).Sized program := by
  have closed := Source.link_closed linked
  -- All operations keep the sizes of the tables, with which nothing is looked up in vain.
  obtain ⟨sized, reasons⟩ := after_lasting (Exec.operates_inRange closed) Exec.inRange_law
    Exec.sized_lasting (start_sized closed host) operations
  refine ⟨fun id code => closed.coroutine_refers,
    fun function member args place arg => closed.parameter_slot member, fun halt member => ?_,
    sized⟩
  have found := reasons halt member
  cases halt with
  | fault fault => exact .inr ⟨fault, rfl⟩
  | outOfFuel => exact .inl rfl
  | dangling => exact absurd rfl found

/-- An array in a thread, and a parameter that a subroutine waits for, are always found. -/
theorem waiting_stays_in_range :
    ∃ program warnings, Source.waiting.link = .ok (program, warnings) ∧
      (∀ (id : CoroutineId) code, program.coroutines[id]? = some code →
        ∀ instr ∈ code.code, instr.Refers .withoutLocals) ∧
      ∀ halt ∈ (start program Bench.empty).halts program
        [(100, .boot), (100, .pass), (1, .tick), (3, .pass)],
        halt = .outOfFuel ∨ ∃ fault, halt = .fault fault := by
  obtain ⟨program, warnings, linked⟩ := Source.waiting_links
  obtain ⟨locals, -, reasons, -⟩ := lookups_stay_in_range linked Bench.empty
    [(100, .boot), (100, .pass), (1, .tick), (3, .pass)]
  exact ⟨program, warnings, linked, locals, reasons⟩

end Machine

end Coro
