import Coro.Proofs.Machine.Bounds
import Coro.Proofs.Program.CallGraph

/-!
Local variables outlive suspensions.

The static variables that keep the local variables of a coroutine are referred to by its own code
only, and this code never runs inside what it has started. So nothing changes them but its own
assignments.
-/

namespace Coro

variable {code : Code} {other : CoroutineId} {halt : Halt} {instr : Instr} {place : LocalId}
  {model : Model} {owner : Owner} {program : Program} {slot : Slot}

/-- The values of some static variables, as far as they are there. -/
abbrev Contents := List (Option (Array Int64))

/-- The values that some static variables have. -/
def Machine.contents {σ : Type} (machine : Machine σ) (ids : List StaticId) : Contents :=
  ids.map (machine.statics[·]?)

/-- All but some static variables, and some subroutines. -/
def References.sparing (ids : List StaticId) (subroutine : CoroutineId → Prop) : References where
  var var := ∀ id ∈ ids, var ≠ .static id
  callee _ := True
  subroutine := subroutine

/-- No other code refers to the static variables that keep the local variables of a coroutine. -/
def Program.KeepsApart (program : Program) : Prop :=
  ∀ (id : CoroutineId) machine, program.coroutines[id]? = some machine →
    ∀ owner code, program.code? owner = some code → owner ≠ .coroutine id →
      ∀ instr ∈ code, instr.Refers (.sparing machine.hoisted fun _ => True)

namespace Model

variable {model : Model} {program : Program} {id : CoroutineId} {coroutine : Coroutine}

theorem not_mem_hoisted {place : StaticId} (declared : place < model.statics.length) :
    place ∉ (model.machineOf id coroutine).hoisted := by
  intro member
  have behind : model.firstHoisted id ≤ place := (List.mem_range'_1.mp member).1
  unfold firstHoisted at behind
  exact absurd declared (Nat.not_lt.mpr (Nat.le_trans (Nat.le_add_right _ _) behind))

/-- The local variables of another coroutine are kept elsewhere. -/
theorem hoisted_apart {coroutine' : Coroutine} (ne : other ≠ id)
    (found : model.coroutines[id]? = some coroutine)
    (found' : model.coroutines[other]? = some coroutine')
    (declared : place < coroutine'.locals.length) :
    model.firstHoisted other + place ∉ (model.machineOf id coroutine).hoisted := by
  intro member
  obtain ⟨behind, small⟩ := List.mem_range'_1.mp member
  -- A variable that kept local variables of both would belong to both.
  obtain ⟨inside, same⟩ : ∃ inside, model.firstHoisted id + inside =
      model.firstHoisted other + place := ⟨_, Nat.add_sub_cancel' behind⟩
  rw [← same] at small
  have listed := List.getElem?_eq_getElem (Nat.lt_of_add_lt_add_left small)
  have kept := hoist_local found listed
  rw [same, hoist_local found' (List.getElem?_eq_getElem declared)] at kept
  injection kept with storage
  injection storage with _ owner
  injection owner with equal
  exact ne equal

/-- In a lowered program, local variables of coroutines are kept apart. -/
theorem LowersTo.keepsApart (lowered : model.LowersTo program) (formed : model.WellFormed) :
    program.KeepsApart := by
  intro id machine found owner code made ne
  rw [lowered.coroutines] at found
  obtain ⟨coroutine, known, rfl⟩ := Option.map_eq_some_iff.mp found
  obtain ⟨body, source, -⟩ := lowered.code?_eq made
  obtain ⟨valued, statements⟩ := formed.statementsOf source
  refine lowered.refers made source statements.refers
    ⟨⟨?_, fun _ _ => trivial⟩, fun _ _ => trivial, ?_⟩
  · intro var usable place member
    obtain ⟨indexed, allowed⟩ := usable
    cases var with
    | static declared =>
      have other : Var.static declared ≠ .static place := by
        intro same
        injection same with same
        exact not_mem_hoisted (static_declared allowed) (same ▸ member)
      cases owner <;> exact other
    | localVar own =>
      have declared : own < body.locals.length := by simpa using Shapes.local_declared allowed
      cases owner with
      | coroutine other =>
        obtain ⟨coroutine', found', rfl⟩ := Option.map_eq_some_iff.mp source
        rw [contextOf_local found' declared]
        intro same
        injection same with same
        have distinct : other ≠ id := fun equal => ne (congrArg Owner.coroutine equal)
        exact hoisted_apart distinct known found' declared (same ▸ member)
      -- While they run, other bodies have local variables of their own.
      | _ => exact nofun
    | external place => cases owner <;> exact nofun
  · intro callee _ parameter member place hidden same
    injection same with same
    rw [contextOf_parameters] at member
    have declared := formed.parameters_static [] callee parameter member
    exact not_mem_hoisted (static_declared declared) (same ▸ hidden)

end Model

/-- In a linked program, local variables of coroutines are kept apart. -/
theorem Source.link_keepsApart {source : Source} {warnings : List (Located Warning)}
    (linked : source.link = .ok (program, warnings)) : program.KeepsApart := by
  obtain ⟨description, resolved, -, meant, lowered, -⟩ := link_eq_ok linked
  obtain ⟨tables, complete, known⟩ := Ast.Description.resolve_tables meant
  exact (Model.lower_lowersTo lowered).keepsApart (Tables.toModel?_wellFormed complete known)

/-! ## What leaves variables alone -/

namespace Exec

variable {σ : Type} {ids : List StaticId}

/-- A run takes the values of some static variables along a relation, also when it stops. -/
def Moves (ids : List StaticId) (leads : Contents → Contents → Prop) {α : Type} (run : Exec σ α)
    (post : α → Prop) : Prop :=
  ∀ values, Keeps (fun machine => leads values (machine.contents ids)) (fun _ => True) run post

/-- A run leaves some static variables as they are, also when it stops. -/
abbrev Spares (ids : List StaticId) {α : Type} (run : Exec σ α) (post : α → Prop) : Prop :=
  Moves ids (fun values now => now = values) run post

theorem contents_lasting (said : Contents → Prop) :
    Machine.Lasting (σ := σ) fun machine => said (machine.contents ids) := by
  intro before after statics _ _ held
  simpa only [Machine.contents, statics] using held

namespace Moves

variable {α : Type} {leads : Contents → Contents → Prop} {run : Exec σ α} {post : α → Prop}

theorem modifyGet {change : Machine σ → α × Machine σ}
    (same : ∀ machine, (change machine).2.statics = machine.statics) :
    Moves (σ := σ) ids leads (MonadStateOf.modifyGet change) fun _ => True := by
  intro values machine held
  refine ⟨?_, trivial⟩
  simpa only [Machine.contents, same machine] using held

/-- Following a relation is a law about runs. -/
theorem law : OpenLaw (σ := σ) (Moves ids leads) :=
  OpenLaw.all fun values => Keeps.openLaw (contents_lasting (leads values)).level

end Moves

namespace Spares

variable {α : Type} {run : Exec σ α} {post : α → Prop}

theorem contents_behind (spares : Spares ids run post) (machine : Machine σ) :
    (behind run machine).contents ids = machine.contents ids :=
  (spares (machine.contents ids)).behind rfl

/-- Where nothing changes, everything that was related still is. -/
theorem moves (spares : Spares ids run post) (leads : Contents → Contents → Prop) :
    Moves ids leads run post := by
  intro values machine held
  have outcome := spares (machine.contents ids) machine rfl
  cases ran : run machine with
  | ok value after =>
    rw [ran] at outcome
    have same : after.contents ids = machine.contents ids := outcome.1
    exact ⟨show leads values (after.contents ids) from same ▸ held, outcome.2⟩
  | error halt after =>
    rw [ran] at outcome
    have same : after.contents ids = machine.contents ids := outcome.1
    exact ⟨show leads values (after.contents ids) from same ▸ held, trivial⟩

end Spares

theorem spares_law : OpenLaw (σ := σ) (Spares ids) :=
  Moves.law

variable [Host σ]

/-- Storing a value changes one variable. -/
theorem store_spares (model : Model) (frame : Frame) (value : Int64)
    {subroutine : CoroutineId → Prop} (apart : slot.Granted (.sparing ids subroutine)) :
    Spares (σ := σ) ids (store model frame slot value) fun _ => True := by
  refine spares_law.store trivial (fun _ _ _ _ _ => trivial) (fun id index storage same _ => ?_)
    fun _ _ _ _ => .modifyGet fun _ => rfl
  -- The written variable is none of those that are looked at.
  intro values machine held
  refine ⟨?_, trivial⟩
  rw [← held]
  refine List.map_congr_left fun other member => ?_
  subst same
  have distinct : id ≠ other := fun same => apart other member (congrArg Var.static same)
  simp [Memory.write, Array.getElem?_modify, distinct]

variable {program : Program} {callees : Callees σ} {granted : References}

/-- An expression changes only what the functions do that it calls. -/
theorem reads_move (model : Model) (leads : Contents → Contents → Prop)
    (functions : ∀ id args, Moves ids leads (callees.function id args) fun _ => True) :
    Reads (Moves ids leads) model callees (fun _ => True) (Slot.Granted granted) granted where
  locate frame var index _ known := Moves.law.weaken (Moves.law.locate frame var index)
    fun _ same => Slot.granted_of_var (same ▸ known)
  load frame slot _ _ := Moves.law.load (fun _ => Moves.law.bind (.modifyGet fun _ => rfl)
    fun _ _ => Moves.law.pure trivial) frame slot
  function id args _ := functions id args
  external _ _ _ := Moves.law.bind (Moves.law.found _) fun _ _ => .modifyGet fun _ => rfl

omit [Host σ] in
theorem drives_move (leads : Contents → Contents → Prop) (own : Option CoroutineId)
    (coroutines : ∀ id, granted.subroutine id →
      Moves ids leads (callees.coroutine id) fun _ => True) :
    Drives (Moves ids leads) (fun _ => True) program callees own granted :=
  Moves.law.drives own (fun _ _ => .modifyGet fun _ => rfl) coroutines

/-! ## Whose code leaves local variables alone -/

section Elsewhere

variable (apart : program.KeepsApart) {id : CoroutineId} {machine : StateMachine}
  (found : program.coroutines[id]? = some machine)

include apart found

/-- Instructions of other code spare local variables, if what they drive does. -/
theorem executeElsewhere_spares
    (functions : ∀ place args, Spares machine.hoisted (callees.function place args) fun _ => True)
    (made : program.code? owner = some code) (ne : owner ≠ .coroutine id) (member : instr ∈ code)
      (driven : ∀ callee, instr = .drive callee → Spares machine.hoisted (callees.coroutine callee)
      fun _ => True) (frame : Frame) :
    Spares machine.hoisted (execute program callees owner.coroutine? frame instr)
      fun _ => True := by
  have within : References.Within (.sparing machine.hoisted fun _ => True)
      (.sparing machine.hoisted fun callee => instr = .drive callee) fun var => var :=
    ⟨fun _ known => known, fun _ known => known⟩
  have refers := (apart id machine found owner code made ne instr member).mono within
    fun callee same _ => same
  exact spares_law.execute (reads_move program.model _ functions)
    (fun frame _ value _ known => store_spares program.model frame value known)
    (drives_move _ owner.coroutine? driven) trivial refers

/-- Instructions of other bodies that are never suspended spare local variables. -/
theorem executePlain_spares
    (functions : ∀ place args, Spares machine.hoisted (callees.function place args) fun _ => True)
    (made : program.code? owner = some code) (easy : ∀ instr ∈ code, instr.IsPlain)
    (plain : owner.coroutine? = none) :
    ∀ instr ∈ code, ∀ frame,
      Spares machine.hoisted (execute program callees none frame instr) fun _ => True := by
  have ne : owner ≠ .coroutine id := by
    intro same
    rw [same] at plain
    cases plain
  intro instr member frame
  rw [← plain]
  refine executeElsewhere_spares apart found functions made ne member (fun callee same => ?_) frame
  -- Only coroutines drive subroutines.
  subst same
  exact (easy _ member).elim

/-- Nothing spoils the local variables of a coroutine that does not lead back to it. -/
theorem callees_spare (formed : program.WellFormed) (fuel levels : Nat) :
    Follows (Spares (σ := σ) machine.hoisted)
      (fun other => ¬Relation.ReflTransGen program.Calls other id)
      (Exec.callees program fuel levels) := by
  refine spares_law.callees (fun other _ => spares_law.state other) ?_ ?_ fuel levels
  · intro callees inner place code made
    exact executePlain_spares apart found inner.function made
      (formed.plain.functions code (List.mem_of_getElem? made)) rfl
  · intro callees inner other away code known instr member frame
    have ne : Owner.coroutine other ≠ .coroutine id := by
      intro same
      injection same with same
      exact away (same ▸ .refl)
    have made : program.code? (.coroutine other) = some code.code :=
      Option.map_eq_some_iff.mpr ⟨code, known, rfl⟩
    refine executeElsewhere_spares apart found inner.function made ne member ?_ frame
    -- What it calls leads no more to the coroutine than it does itself.
    intro callee same
    have calls := formed.calls_of_drive known (same ▸ member)
    exact inner.coroutine callee fun leads => away (.head calls leads)

end Elsewhere

/-! ## What changes local variables -/

/-- A store that stops has changed nothing. -/
theorem store_stops {frame : Frame} {value : Int64} {machine after : Machine σ}
    (ran : store model frame slot value machine = .error halt after) : after = machine := by
  -- Everything is looked up before anything is changed.
  cases slot with
  | static id index =>
    cases listed : model.statics[id]? with
    | none =>
      simp only [store, listed] at ran
      cases ran
      rfl
    | some storage =>
      simp only [store, listed, require_some, pure_bind] at ran
      cases held : machine.statics.read? id index with
      | none =>
        change (require (machine.statics.read? id index) >>= _) machine = _ at ran
        rw [held] at ran
        cases ran
        rfl
      | some old =>
        change (require (machine.statics.read? id index) >>= _) machine = _ at ran
        rw [held] at ran
        cases ran
  | localVar id index =>
    cases listed : frame.locals[id]? with
    | none =>
      simp only [store, listed] at ran
      cases ran
      rfl
    | some known =>
      simp only [store, listed, require_some, pure_bind] at ran
      cases held : frame.memory.read? id index with
      | none =>
        rw [held] at ran
        cases ran
        rfl
      | some old =>
        rw [held] at ran
        cases ran
  | external id =>
    cases listed : model.externals[id]? with
    | none =>
      simp only [store, listed] at ran
      cases ran
      rfl
    | some external =>
      simp only [store, listed, require_some, pure_bind] at ran
      cases ran

end Exec

/-- An assignment of a coroutine, carried out on some machine, changes what is kept for it. -/
def Program.OwnAssignment (program : Program) (σ : Type) [Host σ] (id : CoroutineId)
    (machine : StateMachine) (before after : Contents) : Prop :=
  ∃ place op value, .assign place op value ∈ machine.code ∧
    ∃ fuel levels frame result, ∃ start final : Machine σ,
      Exec.execute program (Exec.callees program fuel levels) (some id) frame
        (.assign place op value) start = .ok result final ∧
      start.contents machine.hoisted = before ∧ final.contents machine.hoisted = after

namespace Exec

variable {σ : Type} [Host σ] {program : Program} {callees : Callees σ} {id : CoroutineId}
  {machine : StateMachine}

section Own

variable (closed : program.Closed) (found : program.coroutines[id]? = some machine)
  (functions : ∀ place args, Spares machine.hoisted (callees.function place args) fun _ => True)

include closed found functions

/-- Instructions of its own spare the local variables of a coroutine, assignments apart. -/
theorem executeOwn_spares (member : instr ∈ machine.code)
    (other : ∀ place op value, instr ≠ .assign place op value)
    (driven : ∀ callee, instr = .drive callee →
      Spares machine.hoisted (callees.coroutine callee) fun _ => True) (frame : Frame) :
    Spares machine.hoisted (execute program callees (some id) frame instr) fun _ => True := by
  obtain ⟨body, -, refers⟩ := closed.code (.coroutine id) machine.code
    (Option.map_eq_some_iff.mpr ⟨machine, found, rfl⟩)
  let granted : References :=
    { program.model.references [] with subroutine := fun callee => instr = .drive callee }
  have within : (program.model.references []).Within granted fun var => var :=
    ⟨fun _ known => known, fun _ known => known⟩
  have known : instr.Refers granted := (refers instr member).mono within fun _ same _ => same
  exact spares_law.executeOther (reads_move program.model _ functions)
    (drives_move _ (some id) driven) trivial known other

/-- An assignment that stops has changed no local variable of the coroutine. -/
theorem assign_spares {place : Place} {op : Option BinaryOp} {value : Expr}
    (member : .assign place op value ∈ machine.code) {frame : Frame} {start after : Machine σ}
    (ran : execute program callees (some id) frame (.assign place op value) start =
      .error halt after) : after.contents machine.hoisted = start.contents machine.hoisted := by
  obtain ⟨body, -, refers⟩ := closed.code (.coroutine id) machine.code
    (Option.map_eq_some_iff.mpr ⟨machine, found, rfl⟩)
  obtain ⟨placed, valued⟩ := refers _ member
  have spares : Spares machine.hoisted
      (assignment program.model callees frame place op value) fun _ => True :=
    spares_law.weaken (spares_law.assignment (reads_move program.model _ functions) trivial op
      placed valued) fun _ _ => trivial
  have early := spares.contents_behind start
  -- It stops before its value is stored, or where nothing can be stored.
  simp only [execute, assign_eq, Bind.bind, EStateM.bind] at ran
  cases chosen : assignment program.model callees frame place op value start with
  | error reason middle =>
    rw [chosen] at ran
    cases ran
    simpa only [behind, chosen] using early
  | ok slot middle =>
    rw [chosen] at ran
    have kept : middle.contents machine.hoisted = start.contents machine.hoisted := by
      simpa only [behind, chosen] using early
    cases stored : store program.model frame slot.1 slot.2 middle with
    | ok frame final =>
      simp only [stored] at ran
      cases ran
    | error reason final =>
      simp only [stored] at ran
      cases ran
      rw [store_stops stored, kept]

end Own

variable (closed : program.Closed) (sound : program.Sound) (apart : program.KeepsApart)
  (found : program.coroutines[id]? = some machine)

include sound apart found

theorem called_spares {callee : CoroutineId} (calls : Relation.TransGen program.Calls id callee)
    (fuel levels : Nat) : Spares (σ := σ) machine.hoisted
      ((Exec.callees program fuel levels).coroutine callee) fun _ => True :=
  (callees_spare apart found sound.toWellFormed fuel levels).coroutine callee fun leads =>
    sound.acyclic id (calls.trans_left leads)

/-- A coroutine that works for another thread spares local variables. -/
theorem foreign_spares {coroutine coroutine' : Coroutine}
    (known : program.model.coroutines[id]? = some coroutine)
    (known' : program.model.coroutines[other]? = some coroutine')
    (foreign : coroutine'.thread ≠ coroutine.thread) (fuel levels : Nat) :
    Spares (σ := σ) machine.hoisted ((Exec.callees program fuel levels).coroutine other)
      fun _ => True := by
  refine (callees_spare apart found sound.toWellFormed fuel levels).coroutine other fun leads => ?_
  obtain ⟨reached, again, thread⟩ := sound.leads_thread leads known'
  obtain rfl := Option.some.inj (known.symm.trans again)
  exact foreign thread.symm

/-- Hooks spare the local variables of coroutines. -/
theorem hook_spares (fuel : Nat) (place : HookId) :
    Spares (σ := σ) machine.hoisted (hook program fuel place) fun _ => True :=
  spares_law.hook fun code made => executePlain_spares apart found
    (callees_spare apart found sound.toWellFormed fuel maxDepth).function made
    (sound.plain.hooks code (List.mem_of_getElem? made)) rfl

/-- The entry point spares the local variables of coroutines. -/
theorem entry_spares (fuel : Nat) :
    Spares (σ := σ) machine.hoisted (runBody program fuel (outermost program fuel)
      program.model.entry.locals program.entry []) fun _ => True := by
  have made : program.code? .entry = some program.entry := rfl
  exact spares_law.anyBody (executePlain_spares apart found
    (callees_spare apart found sound.toWellFormed fuel maxDepth).function made sound.plain.entry
    rfl) fuel

include closed

/-- Whatever runs changes the local variables of a coroutine by assignments of its own. -/
theorem runCoroutine_assigns {fuel levels : Nat}
    (inner : ∀ other, Moves (σ := σ) machine.hoisted
      (Relation.ReflTransGen (program.OwnAssignment σ id machine))
      ((Exec.callees program fuel levels).coroutine other) fun _ => True) (other : CoroutineId) :
    Moves (σ := σ) machine.hoisted (Relation.ReflTransGen (program.OwnAssignment σ id machine))
      (runCoroutine program fuel (Exec.callees program fuel levels) other) fun _ => True := by
  let leads := Relation.ReflTransGen (program.OwnAssignment σ id machine)
  have functions := (callees_spare (σ := σ) apart found sound.toWellFormed fuel levels).function
  have each : ∀ code, program.coroutines[other]? = some code → ∀ instr ∈ code.code, ∀ frame, True →
      Moves (σ := σ) machine.hoisted leads (execute program (Exec.callees program fuel levels)
        (some other) frame instr) fun _ => True := by
    intro code known instr member frame _
    by_cases same : other = id
    · subst same
      obtain rfl := Option.some.inj (found.symm.trans known)
      by_cases assigned : ∃ place op value, instr = .assign place op value
      · -- An assignment of its own is one more step, unless it stops.
        obtain ⟨place, op, value, rfl⟩ := assigned
        intro values start held
        cases ran : execute program (Exec.callees program fuel levels) (some other) frame
          (.assign place op value) start with
        | ok result final =>
          exact ⟨held.tail ⟨place, op, value, member, fuel, levels, frame, result, start, final,
            ran, rfl, rfl⟩, trivial⟩
        | error halt after =>
          have kept := assign_spares closed found functions member ran
          exact ⟨show leads values (after.contents machine.hoisted) from kept ▸ held, trivial⟩
      · refine (executeOwn_spares closed found functions member ?_ ?_ frame).moves leads
        · exact fun place op value same => assigned ⟨place, op, value, same⟩
        · intro callee driven
          have calls := sound.calls_of_drive found (driven ▸ member)
          exact called_spares sound apart found (.single calls) fuel levels
    · -- Other code can only lead to assignments by what it drives.
      have made : program.code? (.coroutine other) = some code.code :=
        Option.map_eq_some_iff.mpr ⟨code, known, rfl⟩
      have apartFrom : Owner.coroutine other ≠ .coroutine id := by
        intro equal
        injection equal with equal
        exact same equal
      have refers := apart id machine found _ code.code made apartFrom instr member
      exact Moves.law.execute
        (reads_move program.model leads fun place args => (functions place args).moves leads)
        (fun frame _ value _ known => (store_spares program.model frame value known).moves leads)
        (drives_move leads (some other) fun callee _ => inner callee) trivial refers
  exact Moves.law.runCoroutine (fun _ => trivial) (Moves.law.state other) each fuel trivial

/-- However many bodies can be started inside each other, only own assignments change anything. -/
theorem callees_assign (fuel levels : Nat) (other : CoroutineId) :
    Moves (σ := σ) machine.hoisted (Relation.ReflTransGen (program.OwnAssignment σ id machine))
      ((Exec.callees program fuel levels).coroutine other) fun _ => True := by
  induction levels generalizing other with
  | zero => exact Moves.law.throw trivial
  | succ levels ih => exact runCoroutine_assigns closed sound apart found ih other

/-- Everything that the scheduler starts changes local variables by own assignments only. -/
theorem operates_assign (values : Contents) (fuel : Nat) :
    Operates (σ := σ) (fun state => Relation.ReflTransGen (program.OwnAssignment σ id machine)
      values (state.contents machine.hoisted)) (fun _ => True) program fuel where
  hook place _ _ := (hook_spares sound apart found fuel place).moves _ values
  entry := (entry_spares sound apart found fuel).moves _ values
  step other _ := callees_assign closed sound apart found fuel (maxDepth + 1) other values

/-- A run leaves some static variables as they are, whether it returns or stops. -/
def LeavesAlone {α : Type} (ids : List StaticId) (run : Exec σ α) : Prop :=
  ∀ machine, (behind run machine).contents ids = machine.contents ids

end Exec

/-- Each local variable of a coroutine has a static variable that keeps it. -/
theorem Model.LowersTo.hoisted_local (lowered : model.LowersTo program) {id : CoroutineId}
    {coroutine : Coroutine} {machine : StateMachine}
    (known : program.model.coroutines[id]? = some coroutine)
    (found : program.coroutines[id]? = some machine) {kept : Local}
    (listed : coroutine.locals[place]? = some kept) :
    ∃ slot storage, machine.hoisted[place]? = some slot ∧
      program.model.statics[slot]? = some storage ∧ storage.owner = .coroutine id ∧
      storage.type = kept.type ∧ storage.length = kept.length := by
  rw [lowered.hoisted] at known ⊢
  have known : model.coroutines[id]? = some coroutine := known
  rw [lowered.coroutines, known] at found
  obtain rfl := Option.some.inj found
  have small := (List.getElem?_eq_some_iff.mp listed).1
  refine ⟨model.firstHoisted id + place, _, ?_, hoist_local known listed, rfl, rfl, rfl⟩
  simp [machineOf, small]

namespace Machine

variable {σ : Type} [Host σ]

/--
The local variables of a coroutine outlive its suspensions.

They are kept in static variables. Through all operations, also those that stop early, these change
only by assignments in the code of the coroutine. Its other instructions leave them alone, and so do
those of all other coroutines, which can at most let the coroutine itself go on. Whatever it calls,
directly or not, leaves them alone altogether, as do coroutines of other threads, functions, hooks
and the entry point.
-/
theorem locals_outlive_suspensions {source : Source} {program : Program}
    {warnings : List (Located Warning)} (linked : source.link = .ok (program, warnings))
    {id : CoroutineId} {coroutine : Coroutine} {code : StateMachine}
    (known : program.model.coroutines[id]? = some coroutine)
    (found : program.coroutines[id]? = some code) :
    (∀ (place : LocalId) (kept : Local), coroutine.locals[place]? = some kept →
      ∃ (slot : StaticId) (storage : StaticVariable), code.hoisted[place]? = some slot ∧
      program.model.statics[slot]? = some storage ∧
      storage.owner = .coroutine id ∧ storage.type = kept.type ∧ storage.length = kept.length) ∧
    (∀ (machine : Machine σ) operations,
      Relation.ReflTransGen (program.OwnAssignment σ id code) (machine.contents code.hoisted)
        ((machine.after program operations).contents code.hoisted)) ∧
    ∀ fuel levels, let callees : Callees σ := Exec.callees program fuel levels
      (∀ instr ∈ code.code, (∀ place op value, instr ≠ .assign place op value) → ∀ frame,
        Exec.LeavesAlone code.hoisted (Exec.execute program callees (some id) frame instr)) ∧
      (∀ (other : CoroutineId) code', other ≠ id → program.coroutines[other]? = some code' →
        ∀ instr ∈ code'.code, (∀ callee, instr ≠ .drive callee) → ∀ frame,
          Exec.LeavesAlone code.hoisted (Exec.execute program callees (some other) frame instr)) ∧
      (∀ callee, Relation.TransGen program.Calls id callee →
        Exec.LeavesAlone code.hoisted (callees.coroutine callee)) ∧
      (∀ (other : CoroutineId) coroutine', program.model.coroutines[other]? = some coroutine' →
        coroutine'.thread ≠ coroutine.thread →
          Exec.LeavesAlone code.hoisted (callees.coroutine other)) ∧
      (∀ function args, Exec.LeavesAlone code.hoisted (callees.function function args)) ∧
      (∀ hook, Exec.LeavesAlone (σ := σ) code.hoisted (Exec.hook program fuel hook)) ∧
      Exec.LeavesAlone (σ := σ) code.hoisted (Exec.runBody program fuel
        (Exec.outermost program fuel) program.model.entry.locals program.entry []) := by
  have closed := Source.link_closed linked
  have sound := Source.link_sound linked
  have apart := Source.link_keepsApart linked
  refine ⟨fun place kept listed => ?_, fun machine operations => ?_, fun fuel levels => ?_⟩
  · obtain ⟨description, resolved, -, -, lowered, -⟩ := Source.link_eq_ok linked
    exact (Model.lower_lowersTo lowered).hoisted_local known found listed
  · -- Every operation goes on from where the assignments so far have led.
    have law : Exec.Law (Exec.Keeps (fun state : Machine σ => Relation.ReflTransGen
        (program.OwnAssignment σ id code) (machine.contents code.hoisted)
        (state.contents code.hoisted)) fun _ => True) fun _ => True :=
      (Exec.Keeps.openLaw (Exec.contents_lasting _).level).toLaw
    exact (after_lasting (Exec.operates_assign closed sound apart found _) law
      (Exec.contents_lasting _) .refl operations).1
  · obtain ⟨functions, -⟩ :=
      Exec.callees_spare (σ := σ) apart found sound.toWellFormed fuel levels
    refine ⟨fun instr member other frame => ?_,
      fun other code' ne made instr member still frame => ?_, fun callee calls => ?_,
      fun other coroutine' known' foreign => ?_, fun place args => ?_, fun place => ?_, ?_⟩
    · refine (Exec.executeOwn_spares closed found functions member other
        (fun callee driven => ?_) frame).contents_behind
      have calls := sound.calls_of_drive found (driven ▸ member)
      exact Exec.called_spares sound apart found (.single calls) fuel levels
    · have listed : program.code? (.coroutine other) = some code'.code :=
        Option.map_eq_some_iff.mpr ⟨code', made, rfl⟩
      have apartFrom : Owner.coroutine other ≠ .coroutine id := by
        intro equal
        injection equal with equal
        exact ne equal
      exact (Exec.executeElsewhere_spares apart found functions listed apartFrom member
        (fun callee driven => absurd driven (still callee)) frame).contents_behind
    · exact (Exec.called_spares sound apart found calls fuel levels).contents_behind
    · exact (Exec.foreign_spares sound apart found known known' foreign fuel
        levels).contents_behind
    · exact (functions place args).contents_behind
    · exact (Exec.hook_spares sound apart found fuel place).contents_behind
    · exact (Exec.entry_spares sound apart found fuel).contents_behind

end Machine

/-- A thread that calls a subroutine, both with a local variable. -/
def Source.keeping : Source :=
  .ofText "keeping" "thread t{sub s{let u8 b=2;yield;}let u8 a=1;call s;a=3;}main{}"

/-- The thread sets its variable, waits for the subroutine and goes on. -/
theorem Source.keeping_waits : ∃ program warnings, keeping.link = .ok (program, warnings) ∧
    program.coroutines.map StateMachine.hoisted = [[0], [1]] ∧
    (program.calls 0).map Located.value = [1] ∧
    ((Machine.start program Bench.empty).after program [(9, .boot), (9, .pass)]).contents [0] =
      [some #[1]] ∧
    (((Machine.start program Bench.empty).after program [(9, .boot), (9, .pass)]).after program
      [(9, .pass)]).contents [0] = [some #[3]] :=
  keeping.links_of_decide (by decide +kernel)

/-- The thread changes its variable when it goes on, and the subroutine never does. -/
theorem Machine.keeping_outlives_suspension : ∃ program warnings code,
    Source.keeping.link = .ok (program, warnings) ∧
    program.coroutines[0]? = some code ∧ code.hoisted = [0] ∧
    Relation.ReflTransGen (program.OwnAssignment Bench 0 code) [some #[1]] [some #[3]] ∧
    ∀ fuel levels, Exec.LeavesAlone (σ := Bench) code.hoisted
      ((Exec.callees program fuel levels).coroutine 1) := by
  obtain ⟨program, warnings, linked, hoisted, calls, waiting, done⟩ := Source.keeping_waits
  have sound := Source.link_sound linked
  -- The thread is the first of the two coroutines.
  have first := congrArg (·[0]?) hoisted
  obtain ⟨code, found, kept⟩ : ∃ code, program.coroutines[0]? = some code ∧ code.hoisted = [0] := by
    simpa using first
  have called : program.Calls 0 1 := by
    refine Program.mem_calls.mp (List.mem_map.mp ?_)
    rw [calls]
    exact List.mem_singleton.mpr rfl
  obtain ⟨coroutine, -, known, -⟩ := sound.calls 0 1 called
  obtain ⟨-, assigned, alone⟩ := locals_outlive_suspensions (σ := Bench) linked known found
  refine ⟨program, warnings, code, linked, found, kept, ?_, fun fuel levels => ?_⟩
  · rw [kept] at assigned
    rw [← waiting, ← done]
    exact assigned _ _
  · exact (alone fuel levels).2.2.1 1 (.single called)

end Coro
