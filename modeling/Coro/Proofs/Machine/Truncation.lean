import Coro.Proofs.Machine.Bounds
import Coro.Proofs.Machine.Moment
import Coro.Proofs.Parser.Words

/-!
Stored values fit their types.

Values are computed without regard to types, but nothing is stored, passed as an argument, or given
to the host before it was made to fit, and what the host answers is made to fit as well.
-/

namespace Coro

variable {instr : Instr} {type : IntType} {args : List Int64} {locals : List Local} {model : Model}
  {program : Program} {granted : References}

/-! ## Memory -/

/-- All values of some variables fit their types. -/
def Memory.Fits (memory : Memory) (types : List IntType) : Prop :=
  ∀ id index type value, types[id]? = some type → memory.read? id index = some value →
    type.Fits value

namespace Memory.Fits

variable {memory : Memory} {types : List IntType}

/-- A value that fits can be written. -/
theorem write (fits : memory.Fits types) {id index : Nat} {value : Int64}
    (listed : types[id]? = some type) (right : type.Fits value) :
    (memory.write id index value).Fits types := by
  -- The cell that was written holds the new value, and all others what they held.
  intro place offset other found known read
  rw [read?_write] at read
  split at read
  case isTrue same =>
    obtain ⟨rfl, rfl⟩ := same
    obtain ⟨-, -, rfl⟩ := Option.map_eq_some_iff.mp read
    rwa [← Option.some.inj (listed.symm.trans known)]
  case isFalse => exact fits place offset other found known read

/-- A variable has its cells, and they all fit. -/
theorem cells (fits : memory.Fits types) {id size : Nat} (listed : types[id]? = some type)
    (counted : memory.sizes[id]? = some size) :
    ∃ cells, memory[id]? = some cells ∧ cells.size = size ∧
      ∀ value ∈ cells, type.wrap value = value := by
  obtain ⟨cells, found, rfl⟩ := cells_of_sizes counted
  refine ⟨cells, found, rfl, fun value member => ?_⟩
  obtain ⟨index, known⟩ := Array.mem_iff_getElem?.mp member
  exact fits id index type value listed (by simp [read?, found, known])

end Memory.Fits

/-- Static variables start with values that fit, if those that are given do. -/
theorem initialMemory_fits {statics : List StaticVariable}
    (given : ∀ storage ∈ statics, ∀ value, storage.initial = some value →
      storage.type.Fits value) :
    (initialMemory statics).Fits (statics.map StaticVariable.type) := by
  intro id index type value listed read
  rw [List.getElem?_map, Option.map_eq_some_iff] at listed
  obtain ⟨storage, found, rfl⟩ := listed
  have cells : (initialMemory statics)[id]? =
      some (Array.replicate storage.size (storage.initial.getD 0)) := by
    simp [initialMemory, found]
  simp only [Memory.read?, cells, Option.bind_some, Array.getElem?_replicate,
    Option.ite_none_right_eq_some, Option.some.injEq] at read
  rw [← read.2]
  cases present : storage.initial with
  | none => exact storage.type.fits_zero
  | some value => exact given storage (List.mem_of_getElem? found) value present

/-- Local variables start with zeros, or with arguments that were made to fit. -/
theorem argumentCells_fits (locals : List Local) (args : List Int64) :
    Memory.Fits (argumentCells locals args).toArray (locals.map Local.type) := by
  induction locals generalizing args with
  | nil =>
    intro id index type value listed
    simp at listed
  | cons known rest ih =>
    intro id index type value listed read
    -- The first variable has its own cells, and the others follow.
    cases id with
    | zero =>
      obtain rfl : known.type = type := by simpa using listed
      cases args with
      | nil =>
        simp only [Memory.read?, argumentCells, List.getElem?_toArray, List.getElem?_cons_zero,
          Option.bind_some, Array.getElem?_replicate, Option.ite_none_right_eq_some,
          Option.some.injEq] at read
        rw [← read.2]
        exact known.type.fits_zero
      | cons arg args =>
        cases index with
        | zero =>
          obtain rfl : known.type.wrap arg = value := by
            simpa [Memory.read?, argumentCells] using read
          exact known.type.fits_wrap arg
        | succ index => simp [Memory.read?, argumentCells] at read
    | succ id =>
      have later : (rest.map Local.type)[id]? = some type := by simpa using listed
      cases args with
      | nil =>
        refine ih [] id index type value later ?_
        simpa [Memory.read?, argumentCells] using read
      | cons arg args =>
        refine ih args id index type value later ?_
        simpa [Memory.read?, argumentCells] using read

/-- The local variables of a running body are as large as declared, and all their values fit. -/
structure Frame.Fitting (declared : List Local) (frame : Frame) : Prop
    extends Frame.Sized declared frame where
  values : frame.memory.Fits (declared.map Local.type)

theorem Frame.enter_fitting
    (plain : ∀ id < args.length, (locals.map Local.length)[id]? = some none) :
    (Frame.enter locals args).Fitting locals :=
  ⟨Frame.enter_sized plain, argumentCells_fits locals args⟩

/-! ## The host -/

/-- A host has answered and was called, and was given some values only. -/
inductive Host.Serves {σ : Type} [Host σ] (given : String → Int64 → Prop) (host : σ) : σ → Prop
  | start : Serves given host host
  | read {after : σ} (name : String) (before : Serves given host after) :
    Serves given host (Host.read name after).2
  | write {after : σ} {name : String} {value : Int64} (before : Serves given host after)
    (fits : given name value) : Serves given host (Host.write name value after)
  | call {after : σ} (name : String) (args : List Int64) (before : Serves given host after) :
    Serves given host (Host.call name args after).2

/-- A value fits the type of an external variable that has a given name. -/
def Program.Gives (program : Program) (name : String) (value : Int64) : Prop :=
  ∃ external ∈ program.model.externals, external.name = name ∧
    ∃ type volatile, external.kind = .data type volatile ∧ type.wrap value = value

/-- Wherever external variables are meant, there are some. -/
def Model.dataReferences (model : Model) : References where
  var
    | .external id => ∃ external type volatile, model.externals[id]? = some external ∧
        external.kind = .data type volatile
    | _ => True
  callee _ := True
  subroutine _ := True

/-- No code takes an external function for a variable. -/
def Program.Typed (program : Program) : Prop :=
  ∀ owner code, program.code? owner = some code →
    ∀ instr ∈ code, instr.Refers program.model.dataReferences

/-- The program of a well-formed model takes no function for a variable. -/
theorem Model.LowersTo.typed (lowered : model.LowersTo program) (formed : model.WellFormed) :
    program.Typed := by
  intro owner code found
  obtain ⟨body, known, -⟩ := lowered.code?_eq found
  obtain ⟨valued, statements⟩ := formed.statementsOf known
  -- Whether code is that of a coroutine or not, external variables stay where they are.
  refine lowered.refers found known statements.refers ⟨⟨?_, fun _ _ => trivial⟩,
    fun _ _ => trivial, fun _ _ _ _ => trivial⟩
  rw [lowered.hoisted]
  intro var usable
  obtain ⟨indexed, allowed⟩ := usable
  cases var with
  | static id => cases owner <;> trivial
  | localVar id =>
    have declared : id < body.locals.length := by simpa using Shapes.local_declared allowed
    cases owner with
    | coroutine place =>
      obtain ⟨coroutine, there, rfl⟩ := Option.map_eq_some_iff.mp known
      rw [contextOf_local there declared]
      trivial
    | _ => trivial
  | external id =>
    obtain ⟨⟨type, volatile, listed⟩, -⟩ := allowed
    rw [shapes, List.getElem?_map, Option.map_eq_some_iff] at listed
    obtain ⟨external, there, kind⟩ := listed
    cases owner <;> exact ⟨external, type, volatile, there, kind⟩

/-- All static variables of a machine fit, and its host was given values that fit. -/
structure Machine.Fitting {σ : Type} [Host σ] (program : Program) (host : σ)
    (machine : Machine σ) : Prop where
  statics : machine.statics.Fits (program.model.statics.map StaticVariable.type)
  served : Host.Serves program.Gives host machine.host

/-- A slot of an external variable is one. -/
def Slot.Typed (program : Program) : Slot → Prop
  | .external id => ∃ external type volatile, program.model.externals[id]? = some external ∧
      external.kind = .data type volatile
  | _ => True

namespace Exec

variable {σ : Type} [Host σ] {program : Program} {host : σ} {frame : Frame}

/-- A run that finds values that fit leaves such values, whether it returns or stops. -/
def Truncates (program : Program) (host : σ) {α : Type} (run : Exec σ α) (post : α → Prop) :
    Prop :=
  Keeps (Machine.Fitting program host) (fun _ => True) run post

theorem fitting_lasting : Machine.Lasting (Machine.Fitting program host) := by
  intro before after statics _ same fits
  exact ⟨statics ▸ fits.statics, same ▸ fits.served⟩

theorem truncates_law : OpenLaw (Truncates program host) :=
  Keeps.openLaw fitting_lasting.level

/-- Finding a slot changes nothing. -/
theorem locate_truncates (frame : Frame) {var : Var} (index : Int64)
    (granted : program.model.dataReferences.var var) :
    Truncates program host (locate program.model frame var index) (Slot.Typed program) := by
  refine truncates_law.weaken (truncates_law.locate frame var index) fun slot same => ?_
  subst same
  cases slot with
  | external id => exact granted
  | _ => trivial

/-- A read asks the host at most. -/
theorem load_truncates (frame : Frame) (slot : Slot) :
    Truncates program host (load program.model frame slot) fun _ => True :=
  truncates_law.load (fun external _ fits =>
    ⟨⟨fits.statics, .read external.name fits.served⟩, trivial⟩) frame slot

/-- What is stored was made to fit, wherever it goes. -/
theorem store_truncates (frame : Frame) {slot : Slot} (typed : slot.Typed program)
    (value : Int64) :
    Truncates program host (store program.model frame slot value) fun _ => True := by
  refine truncates_law.store trivial (fun _ _ _ _ _ => trivial)
    (fun id index storage _ listed => ?_) fun id external same listed => ?_
  · intro machine fits
    refine ⟨⟨fits.statics.write ?_ (storage.type.fits_wrap value), fits.served⟩, trivial⟩
    simp [listed]
  · -- The host is given what the type of the variable leaves of the value.
    subst same
    obtain ⟨known, type, volatile, found, kind⟩ := typed
    cases listed.symm.trans found
    have given : program.Gives external.name (externalValue external.kind value) := by
      refine ⟨external, List.mem_of_getElem? listed, rfl, type, volatile, kind, ?_⟩
      rw [kind]
      exact type.fits_wrap value
    exact fun machine fits => ⟨⟨fits.statics, .write fits.served given⟩, trivial⟩

/-- What can be started leaves values that fit. -/
abbrev CalleesTruncate (program : Program) (host : σ) : Callees σ → Prop :=
  Follows (Truncates program host) fun _ => True

variable {callees : Callees σ} {own : Option CoroutineId} {code : Code}

/-- All that an expression looks up leaves values that fit. -/
theorem reads_truncate (inner : CalleesTruncate program host callees) :
    Reads (Truncates program host) program.model callees (fun _ => True) (Slot.Typed program)
      program.model.dataReferences := by
  refine ⟨fun frame _ index _ granted => locate_truncates frame index granted,
    fun frame slot _ _ => load_truncates frame slot, fun id args _ => inner.function id args,
    fun id args _ => ?_⟩
  exact truncates_law.bind (truncates_law.found _) fun external _ _ fits =>
    ⟨⟨fits.statics, .call external.name args fits.served⟩, trivial⟩

/-- An instruction leaves values that fit. -/
theorem execute_truncates (inner : CalleesTruncate program host callees) (frame : Frame)
    (refers : instr.Refers program.model.dataReferences) :
    Truncates program host (execute program callees own frame instr) fun _ => True := by
  have drives : Drives (Truncates program host) (fun _ => True) program callees own
      program.model.dataReferences :=
    truncates_law.drives own (fun _ _ _ fits => ⟨⟨fits.statics, fits.served⟩, trivial⟩)
      inner.coroutine
  exact truncates_law.execute (reads_truncate inner)
    (fun frame slot value _ typed => store_truncates frame typed value) drives trivial refers

/-- However many bodies can be started inside each other, all leave values that fit. -/
theorem callees_truncate (typed : program.Typed) (fuel levels : Nat) :
    CalleesTruncate program host (Exec.callees program fuel levels) :=
  truncates_law.callees (fun id _ => truncates_law.state id)
    (fun _ inner id code made instr member frame =>
      execute_truncates inner frame (typed (.function id) code made instr member))
    (fun _ inner id _ machine found instr member frame => execute_truncates inner frame
      (typed (.coroutine id) machine.code (Option.map_eq_some_iff.mpr ⟨machine, found, rfl⟩) instr
        member))
    fuel levels

/-- Everything that the scheduler starts leaves values that fit. -/
theorem operates_truncate (typed : program.Typed) (fuel : Nat) :
    Operates (Machine.Fitting program host) (fun _ => True) program fuel := by
  have inner : CalleesTruncate program host (outermost program fuel) :=
    callees_truncate typed fuel maxDepth
  refine ⟨fun id _ _ => ?_, ?_, fun id _ => ?_⟩
  · exact truncates_law.hook fun code made instr member frame =>
      execute_truncates inner frame (typed (.hook id) code made instr member)
  · exact truncates_law.anyBody (fun instr member frame =>
      execute_truncates inner frame (typed .entry program.entry rfl instr member)) fuel
  · exact (callees_truncate typed fuel (maxDepth + 1)).coroutine id trivial

/-! ## Local variables -/

/-- What is stored in a local variable was made to fit. -/
theorem store_frame (fits : frame.Fitting locals) (slot : Slot) (value : Int64) :
    Returns (σ := σ) (store program.model frame slot value) (Frame.Fitting locals) := by
  refine returns_law.store fits (fun id index known _ listed => ?_)
    (fun _ _ _ _ _ _ _ _ _ => trivial) fun _ _ _ _ _ _ _ _ => trivial
  -- Elsewhere a store leaves the frame alone.
  refine ⟨⟨fits.locals, by simpa using fits.memory⟩, ?_⟩
  refine fits.values.write ?_ (known.type.fits_wrap value)
  rw [fits.locals] at listed
  simp [listed]

/-- An instruction leaves local variables whose values fit. -/
theorem execute_frame (refers : instr.Refers granted) (fits : frame.Fitting locals) :
    Returns (execute program callees own frame instr) fun result =>
      result.2.Fitting locals := by
  have reads : Reads Returns program.model callees (Frame.Fitting locals) (fun _ => True)
      granted :=
    ⟨fun _ _ _ _ _ _ _ _ _ => trivial, fun _ _ _ _ _ _ _ _ => trivial,
      fun _ _ _ _ _ _ _ => trivial, fun _ _ _ _ _ _ _ => trivial⟩
  have drives : Drives Returns (fun _ => True) program callees own granted :=
    ⟨fun _ _ _ _ _ _ => trivial, fun _ _ => ⟨fun _ => trivial, fun _ => trivial⟩,
      fun _ _ _ _ _ _ => trivial, fun _ _ _ _ _ _ _ => trivial⟩
  exact returns_law.execute reads (fun _ slot value fits _ => store_frame fits slot value) drives
    fits refers

/-- At every moment of a body, its local variables have their sizes and values that fit. -/
theorem Reaches.fitting {first moment : Moment σ}
    (reached : Reaches program callees own code first moment)
    (refers : ∀ instr ∈ code, instr.Refers granted) (part : first.rest <:+ code)
    (begun : first.frame.Fitting locals) : moment.frame.Fitting locals :=
  reached.keeps (fun instr member _ fits => execute_frame (refers instr member) fits) part begun

/-- What is read from an external variable was made to fit. -/
theorem load_external {id : ExternalId} {external : External} {volatile : Bool}
    (listed : program.model.externals[id]? = some external)
    (kind : external.kind = .data type volatile) :
    Returns (σ := σ) (load program.model frame (.external id)) type.Fits := by
  intro machine value after loaded
  rw [load, listed, require_some, pure_bind] at loaded
  cases loaded
  rw [kind]
  exact type.fits_wrap _

end Exec

/-- A body of a program is entered with local variables that fit. -/
theorem Program.Closed.enter_fitting (closed : program.Closed) {owner : Owner} {body : Body}
    (known : program.model.body? owner = some body) (few : args.length ≤ body.arity) :
    (Frame.enter (body.framed owner) args).Fitting (body.framed owner) := by
  refine Frame.enter_fitting fun id small => ?_
  have counted := Nat.lt_of_lt_of_le small few
  -- Only functions have parameters among their local variables.
  cases owner with
  | function place =>
    obtain ⟨function, found, rfl⟩ := Option.map_eq_some_iff.mp known
    exact closed.parameters function (List.mem_of_getElem? found) id counted
  | global => cases known
  | coroutine place =>
    obtain ⟨coroutine, -, rfl⟩ := Option.map_eq_some_iff.mp known
    exact absurd counted (Nat.not_lt_zero id)
  | hook place =>
    obtain ⟨hook, -, rfl⟩ := Option.map_eq_some_iff.mp known
    exact absurd counted (Nat.not_lt_zero id)
  | entry =>
    obtain rfl := Option.some.inj known
    exact absurd counted (Nat.not_lt_zero id)

namespace Machine

variable {σ : Type} [Host σ]

/-- A machine starts with static variables that fit. -/
theorem start_fitting {fine : String → Prop} (lowered : model.LowersTo program)
    (named : model.Named fine) (host : σ) : (start program host).Fitting program host := by
  refine ⟨initialMemory_fits fun storage member value given => ?_, .start⟩
  rw [lowered.hoisted, Model.hoist, List.mem_append] at member
  rcases member with declared | hoisted
  · exact named.initial storage declared value given
  · -- Local variables that are kept have no value to start with.
    obtain ⟨numbered, -, kept⟩ := List.mem_flatMap.mp hoisted
    obtain ⟨known, -, rfl⟩ := List.mem_map.mp kept
    cases given

/--
Whatever a linked program stores or exchanges with its host fits its type.

Static variables have their values after any operations, wherever these stopped. The local
variables of a body have theirs at every moment of every run of the body, started with any
arguments.
-/
theorem values_stay_fitting {source : Source} {program : Program}
    {warnings : List (Located Warning)} (linked : source.link = .ok (program, warnings)) (host : σ)
    (operations : List (Nat × Command)) :
    (∀ (id : StaticId) storage, program.model.statics[id]? = some storage →
      ∃ cells, ((start program host).after program operations).statics[id]? = some cells ∧
        cells.size = storage.size ∧ ∀ value ∈ cells, storage.type.wrap value = value) ∧
    (∀ owner body code, program.model.body? owner = some body →
      program.code? owner = some code →
      ∀ callees own args rest machine (moment : Exec.Moment σ), args.length ≤ body.arity →
        rest <:+ code →
        Exec.Reaches program callees own code ⟨rest, .enter (body.framed owner) args, machine⟩
          moment →
        ∀ (id : LocalId) known, (body.framed owner)[id]? = some known →
          ∃ cells, moment.frame.memory[id]? = some cells ∧ cells.size = known.size ∧
            ∀ value ∈ cells, known.type.wrap value = value) ∧
    Host.Serves program.Gives host ((start program host).after program operations).host ∧
    ∀ (id : ExternalId) external type volatile, program.model.externals[id]? = some external →
      external.kind = .data type volatile → ∀ frame (machine : Machine σ) value after,
        Exec.load program.model frame (.external id) machine = .ok value after →
          type.wrap value = value := by
  have closed := Source.link_closed linked
  obtain ⟨model, named, formed, lowered⟩ := Source.link_named linked
  have typed := lowered.typed formed
  -- Sizes and values are kept by every operation, each for its own reasons.
  obtain ⟨sized, -⟩ := after_lasting (Exec.operates_inRange closed) Exec.inRange_law
    Exec.sized_lasting (start_sized closed host) operations
  obtain ⟨fits, -⟩ := after_lasting (Exec.operates_truncate typed)
    Exec.truncates_law.toLaw Exec.fitting_lasting (start_fitting lowered named host) operations
  refine ⟨fun id storage listed => ?_, fun owner body code known made => ?_, fits.served,
    fun id external type volatile listed kind frame => Exec.load_external listed kind⟩
  · exact fits.statics.cells (by simp [listed]) (sized.size listed)
  · intro callees own args rest machine moment few part reached id declared listed
    have inside := reached.fitting (typed owner code made) part (closed.enter_fitting known few)
    exact inside.values.cells (by simp [listed]) (inside.size listed)

end Machine

/-- A program that keeps what a device measures, and sets the device to more than it can take. -/
def Source.measuring : Source :=
  .ofText "measuring" "extern u8 p;static i8 s;fn f(u8 a){p=a;}main{s=p;f(300);}"

theorem Source.measuring_links : ∃ program warnings,
    measuring.link = .ok (program, warnings) ∧
      program.model.statics.map (fun storage => (storage.type, storage.length)) = [(.i8, none)] :=
  measuring.links_of_decide (by decide +kernel)

/-- What a device measures fits the variable that keeps it, and the device is set to what fits. -/
theorem Machine.measuring_stays_fitting :
    ∃ program warnings, Source.measuring.link = .ok (program, warnings) ∧
      (∃ cells, ((start program Bench.empty).after program [(100, .boot), (5, .pass)]).statics[0]? =
        some cells ∧ cells.size = 1 ∧ ∀ value ∈ cells, IntType.i8.wrap value = value) ∧
      Host.Serves program.Gives Bench.empty
        ((start program Bench.empty).after program [(100, .boot), (5, .pass)]).host := by
  obtain ⟨program, warnings, linked, declared⟩ := Source.measuring_links
  obtain ⟨statics, -, served, -⟩ := values_stay_fitting linked Bench.empty
    [(100, .boot), (5, .pass)]
  obtain ⟨storage, one, shape⟩ := List.map_eq_singleton_iff.mp declared
  obtain ⟨type, length⟩ := Prod.mk.inj shape
  have found := statics 0 storage (by simp [one])
  rw [type, StaticVariable.size, length] at found
  exact ⟨program, warnings, linked, found, served⟩

end Coro
