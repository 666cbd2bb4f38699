import Coro.Machine.Bench
import Coro.Proofs.Machine.Bounds
import Coro.Proofs.Structured.Agreement

/-!
Lowering keeps what functions, hooks and the entry point do.

These bodies are never suspended, so their statements can be carried out from the first one on: a
return leaves all of them, and a loop is left or continued by what stands in it. Their code finds
its way through labels instead, and does the same to the same machine.
-/

namespace Coro

/-! ## Bodies as they are written, and their code -/

namespace Model

open Exec

variable {σ κ : Type} [Host σ]

/-- Carries out a body that is never suspended, and tells what it leaves in its variables. -/
def routine (model : Model) (rounds : Nat) (callees : Callees σ κ) (owner : Owner)
    (args : List Int64) : ExecWith σ κ (Option Int64 × Frame) := do
  let body ← require (model.body? owner)
  enter (((model.routineActions callees).runFrom rounds body.statements none).run
    (.enter body.locals (args.take body.arity)))

/-- What such a body can start: functions alone, so many inside each other. -/
def callees (model : Model) (rounds : Nat) : Nat → Callees σ κ
  | 0 => ⟨fun _ _ => throw (.fault .callDepthExceeded), fun _ => throw .dangling⟩
  | levels + 1 =>
    let inner := callees model rounds levels
    -- A function without a value has the value zero.
    ⟨fun id args => do return (← model.routine rounds inner (.function id) args).1.getD 0,
      fun _ => throw .dangling⟩

end Model

namespace Exec

variable {σ : Type} [Host σ]

/-- Runs the code of a body that is never suspended, and tells what it leaves in its variables. -/
def routine (program : Program) (fuel : Nat) (callees : Callees σ) (owner : Owner)
    (args : List Int64) : Exec σ (Option Int64 × Frame) := do
  let body ← require (program.model.body? owner)
  let code ← require (program.code? owner)
  enter (run program callees none code fuel code (.enter body.locals (args.take body.arity)))

/-- Functions, hooks and the entry point are run as bodies whose variables are forgotten. -/
structure RunsRoutines (σ : Type) [Host σ] (program : Program) : Prop where
  function : ∀ fuel (callees : Callees σ) id args, runFunction program fuel callees id args = do
    return (← routine program fuel callees (.function id) args).1.getD 0
  hook : ∀ fuel id, (hook program fuel id : Exec σ Unit) = do
    let _ ← routine program fuel (outermost program fuel) (.hook id) []
  boot : ∀ fuel, (boot program fuel : Exec σ Unit) = do
    hooks program fuel .init
    let _ ← routine program fuel (outermost program fuel) .entry []

/-- Every program runs these bodies in this way. -/
theorem runsRoutines (program : Program) : RunsRoutines σ program where
  function := by
    intro fuel callees id args
    simp only [runFunction, runBody, routine, Model.body?, Program.code?]
    cases program.model.functions[id]? with
    | none => rfl
    | some function => simp
  hook := by
    intro fuel id
    simp only [Exec.hook, hookWith, runBody, routine, Model.body?, Program.code?]
    cases program.model.hooks[id]? with
    | none => rfl
    | some hook => simp
  boot := by
    intro fuel
    simp [Exec.boot, Bodies.boot, Exec.hooks, scheduled, bodies, runBody, routine, Model.body?,
      Program.code?]

end Exec

/-! ## Variables that are declared before others are hoisted -/

namespace Exec

variable {σ κ α : Type} [Host σ] {model : Model} {granted : References}
  {callees other : Callees σ κ}

section Declared

variable (declared : ∀ id, granted.var (.static id) → id < model.statics.length)

include declared

omit [Host σ] in
/-- A declared variable is looked up in the same way behind which others are hoisted. -/
theorem locate_hoist_bind {var : Var} (allowed : granted.var var) (frame : Frame) (index : Int64)
    {next next' : Slot → ExecWith σ κ α}
    (same : ∀ slot, slot.Granted granted → next slot = next' slot) :
    locate model.hoist frame var index >>= next = locate model frame var index >>= next' := by
  cases var with
  | static id =>
    simp only [locate, Model.hoist_statics (declared id allowed), bind_assoc, pure_bind]
    refine bind_congr fun storage => bind_congr fun machine => bind_congr fun cells => ?_
    exact bind_congr fun inside => same (.static id inside) allowed
  | localVar id =>
    simp only [locate, bind_assoc, pure_bind]
    refine bind_congr fun known => bind_congr fun cells => bind_congr fun inside => ?_
    exact same (.localVar id inside) trivial
  | external id => exact same (.external id) trivial

/-- A slot of a declared variable is written in the same way. -/
theorem store_hoist (frame : Frame) {slot : Slot} (allowed : slot.Granted granted) (value : Int64) :
    (store model.hoist frame slot value : ExecWith σ κ Frame) = store model frame slot value := by
  cases slot with
  | static id index => simp only [store, Model.hoist_statics (declared id allowed)]
  | localVar id index => rfl
  | external id => rfl

theorem congruence_hoist :
    Congruence (σ := σ) (κ := κ) Eq model.hoist model granted :=
  .ofEq rfl (fun frame _ index _ _ allowed same =>
      locate_hoist_bind declared allowed frame index same)
    fun frame _ value allowed => store_hoist declared frame allowed value

end Declared

end Exec

/-! ## Bodies that are never suspended -/

namespace Model

variable {σ : Type} [Host σ] {model : Model} {program : Program} {owner : Owner} {body : Body}

/-- Other bodies than those of coroutines are well formed where nothing is suspended. -/
theorem WellFormed.routineOf (formed : model.WellFormed) (plain : owner.coroutine? = none)
    (found : model.body? owner = some body) :
    ∃ valued, BodyWellFormed model.shapes none valued body.locals body.statements := by
  cases owner with
  | global => exact nomatch found
  | coroutine id => exact nomatch plain
  | function id =>
    obtain ⟨function, known, rfl⟩ := Option.map_eq_some_iff.mp found
    exact ⟨_, (formed.functions function (List.mem_of_getElem? known)).body⟩
  | hook id =>
    obtain ⟨hook, known, rfl⟩ := Option.map_eq_some_iff.mp found
    exact ⟨_, formed.hooks hook (List.mem_of_getElem? known)⟩
  | entry =>
    obtain rfl := Option.some.inj found
    exact ⟨_, formed.entry⟩

/-- The code of a body that is never suspended is the one of its statements. -/
theorem LowersTo.routineCode (lowered : model.LowersTo program) (plain : owner.coroutine? = none)
    (found : model.body? owner = some body) :
    program.code? owner = some (model.routineContext.codes none 0 0 body.statements) := by
  cases owner with
  | global => exact nomatch found
  | coroutine id => exact nomatch plain
  | function id =>
    obtain ⟨function, known, rfl⟩ := Option.map_eq_some_iff.mp found
    simp [Program.code?, lowered.functions, known]
  | hook id =>
    obtain ⟨hook, known, rfl⟩ := Option.map_eq_some_iff.mp found
    simp [Program.code?, lowered.hooks, known]
  | entry =>
    obtain rfl := Option.some.inj found
    simp [Program.code?, lowered.entry]

section Lowered

open Exec

variable (lowered : model.LowersTo program)

include lowered

/-- A body that is never suspended does the same behind which variables are hoisted. -/
theorem runFrom_hoist (whole : model.WellFormed) {callees other : Callees σ}
    (functions : ∀ id args, callees.function id args = other.function id args) {valued : Bool}
    {locals : List Local} {statements : List Stmt}
    (formed : BodyWellFormed model.shapes none valued locals statements) (rounds : Nat) :
    ((program.world model).routine callees).runFrom rounds statements none =
      (model.routineActions other).runFrom rounds statements none := by
  let setting : BodySetting := ⟨model.shapes, locals.map Local.length, none, valued⟩
  have declared : ∀ id, setting.references.var (.static id) → id < model.statics.length := by
    rintro id ⟨indexed, length, found, -⟩
    obtain ⟨small, -⟩ := List.getElem?_eq_some_iff.mp found
    simpa [setting, shapes] using small
  have passed : ((program.world model).routine callees).parameters = model.parameters := by
    simp only [Program.world, actions, lowered.hoisted]
    rfl
  -- Where no coroutine is at work, no suspension is well formed.
  have same : Actions.Agrees Eq setting (Stmt.pointCounts statements)
      ((program.world model).routine callees) (model.routineActions other) := by
    refine ⟨⟨fun _ => rfl, fun _ => rfl, fun early late => ?_⟩, passed,
      passed.symm ▸ whole.parameters_static _, fun expr formed => ?_,
      fun place op value placed formed => ?_, fun here => (by cases here),
      fun _ _ _ here => (by cases here), rfl⟩
    · rw [early, funext late]
    · simp only [Program.world, actions, routineActions, lowered.hoisted,
        (congruence_hoist declared).eval functions _ formed.refers]
    · simp only [Program.world, actions, routineActions, lowered.hoisted,
        (congruence_hoist declared).assign functions _ op ⟨placed.refers, formed.refers⟩]
  exact same.runFrom rounds formed.statements (Nat.le_refl _) none

/-- Functions do the same, whether they can stand beside coroutines or not. -/
theorem callees_function_eq (formed : model.WellFormed) (rounds levels : Nat) (id : FunctionId)
    (args : List Int64) :
    ((program.world model).callees rounds levels : Callees σ).function id args =
      (model.callees rounds levels).function id args := by
  -- The bodies of functions are the same, and what they call is so by induction.
  induction levels generalizing id args with
  | zero => rfl
  | succ levels ih =>
    simp only [World.callees, callees, routine, body?]
    cases found : model.functions[id]? with
    | none =>
      rw [(runFunction_unknown lowered found rounds _ args).2]
      rfl
    | some function =>
      have body := (formed.functions function (List.mem_of_getElem? found)).body
      have same := runFrom_hoist lowered formed ih body rounds
      rw [(runFunction_eq lowered found rounds _ args).2, World.runBody, same]
      simp

/-- A body that is not known can neither be run nor carried out. -/
theorem routine_unknown (missing : model.body? owner = none) (fuel rounds : Nat)
    (callees other : Callees σ) (args : List Int64) :
    Exec.routine program fuel callees owner args = throw .dangling ∧
      model.routine rounds other owner args = throw .dangling := by
  have unknown : program.model.body? owner = none := by rw [lowered.hoisted, hoist_body?, missing]
  constructor
  · simp only [Exec.routine, unknown, require]
    rfl
  · simp only [routine, missing, require]
    rfl

/-- A body that is known has code, which is run in a frame for its variables. -/
theorem routine_eq (plain : owner.coroutine? = none) (found : model.body? owner = some body)
    (fuel : Nat) (callees : Callees σ) (args : List Int64) :
    Exec.routine program fuel callees owner args =
      enter ((follow program callees none
        (model.routineContext.codes none 0 0 body.statements) fuel
        (model.routineContext.codes none 0 0 body.statements)).run
          (.enter body.locals (args.take body.arity))) := by
  have known : program.model.body? owner = some body := by rw [lowered.hoisted, hoist_body?, found]
  simp only [Exec.routine, known, lowered.routineCode plain found, require_some, pure_bind]
  rfl

variable (formed : model.WellFormed)

include formed

/-- Code that is never suspended does no more than its statements. -/
theorem routine_noMore (plain : owner.coroutine? = none) (levels fuel : Nat) (args : List Int64) :
    Approximates
      (Exec.routine program fuel (Exec.callees program fuel levels : Callees σ) owner args)
      (model.routine (fuel + 1) (model.callees (fuel + 1) levels) owner args) := by
  cases found : model.body? owner with
  | none =>
    obtain ⟨stuck, lost⟩ := routine_unknown (σ := σ) lowered found fuel (fuel + 1)
      (Exec.callees program fuel levels) (model.callees (fuel + 1) levels) args
    rw [stuck, lost]
    exact .refl _
  | some body =>
    obtain ⟨valued, inner⟩ := formed.routineOf plain found
    have small : fuel ≤ fuel + 1 - 1 := Nat.le_refl fuel
    have runs := routine_tracks lowered
      (noMore_tracks (callees_noMore (σ := σ) lowered formed fuel levels)) inner small
    rw [runFrom_hoist lowered formed (callees_function_eq lowered formed (fuel + 1) levels) inner]
      at runs
    rw [routine_eq lowered plain found]
    simp only [routine, found, require_some, pure_bind]
    exact .enter (runs _)

/-- Code that is never suspended does no less than its statements, if it is given enough. -/
theorem routine_noLess (plain : owner.coroutine? = none) (levels rounds : Nat)
    (args : List Int64) :
    ∃ enough, ∀ fuel ≥ enough, Approximates
      (model.routine rounds (model.callees rounds levels) owner args)
      (Exec.routine program fuel (Exec.callees program fuel levels : Callees σ) owner args) := by
  cases found : model.body? owner with
  | none =>
    refine ⟨0, fun fuel _ => ?_⟩
    obtain ⟨stuck, lost⟩ := routine_unknown (σ := σ) lowered found fuel rounds
      (Exec.callees program fuel levels) (model.callees rounds levels) args
    rw [stuck, lost]
    exact .refl _
  | some body =>
    obtain ⟨valued, inner⟩ := formed.routineOf plain found
    obtain ⟨first, same⟩ := callees_noLess (σ := σ) lowered formed rounds levels
    obtain ⟨second, runs⟩ := routine_tracks lowered
      (noLess_tracks program ((program.world model).callees rounds levels : Callees σ) none _)
      inner (Nat.zero_le (rounds - 1))
    rw [runFrom_hoist lowered formed (callees_function_eq lowered formed rounds levels) inner]
      at runs
    refine ⟨max first second, fun fuel enough => ?_⟩
    rw [routine_eq lowered plain found]
    simp only [routine, found, require_some, pure_bind]
    exact .enter (runs fuel (by omega) _ (same fuel (by omega)) _)

end Lowered

end Model

/--
Running the code of a function, a hook or the entry point does what its statements do.

Both work on the same machine, and end in the same way: with the same value, or at the same fault,
with the same values left in local and static variables, and with the same host. If the one does not
end, neither does the other. Statements end in one way only.
-/
theorem Ast.Description.lower_keeps_routines {σ : Type} [Host σ] (description : Ast.Description)
    (resolved : Resolved) (program : Program) (meant : description.resolve = .ok resolved)
    (lowered : resolved.model.lower = .ok program) :
    Exec.RunsRoutines σ program ∧
    ∀ (levels : Nat) (owner : Owner) (args : List Int64) (machine : Machine σ),
      owner.coroutine? = none →
      (∀ result,
        Exec.EndsWith (fun fuel =>
            Exec.routine program fuel (Exec.callees program fuel levels) owner args)
            machine result ↔
          Exec.EndsWith (fun rounds =>
            resolved.model.routine rounds (resolved.model.callees rounds levels) owner args)
            machine result) ∧
      ∀ result other,
        Exec.EndsWith (fun rounds =>
          resolved.model.routine rounds (resolved.model.callees rounds levels) owner args)
          machine result →
        Exec.EndsWith (fun rounds =>
          resolved.model.routine rounds (resolved.model.callees rounds levels) owner args)
          machine other → result = other := by
  obtain ⟨tables, complete, known⟩ := resolve_tables meant
  have formed := Tables.toModel?_wellFormed complete known
  have made := Model.lower_lowersTo lowered
  refine ⟨Exec.runsRoutines program, fun levels owner args machine plain => ?_⟩
  have noMore := fun fuel => Model.routine_noMore (σ := σ) made formed plain levels fuel args
  have noLess := fun rounds => Model.routine_noLess (σ := σ) made formed plain levels rounds args
  refine ⟨Exec.endsWith_iff (fun fuel => ⟨fuel + 1, noMore fuel⟩) (fun rounds => ?_) machine,
    fun result other => Exec.endsWith_unique noLess⟩
  obtain ⟨enough, below⟩ := noLess rounds
  exact ⟨enough, below enough (Nat.le_refl enough)⟩

/-- A function with a loop that is continued, and left before it ends. -/
def Source.counting : Source :=
  .ofText "counting" "fn f(u8 n)->u8{while n<9{n+=1;if n==2{break;}continue;}return n;}main{}"

theorem Source.counting_runs : ∃ program warnings, counting.link = .ok (program, warnings) ∧
    (match Exec.routine program 30 (Exec.callees program 30 1) (.function 0) [0]
        (Machine.start program Bench.empty) with
      | .ok (value, _) _ => value
      | .error _ _ => none) = some 2 :=
  counting.links_of_decide (by decide +kernel)

/-- The statements of the function count to two. -/
theorem Source.counting_keeps_routines : ∃ description resolved program,
    counting.parse = .ok description ∧ description.resolve = .ok resolved ∧
    resolved.model.lower = .ok program ∧
    ∃ frame after, Exec.EndsWith (fun rounds =>
        resolved.model.routine rounds (resolved.model.callees rounds 1) (.function 0) [0])
      (Machine.start program Bench.empty) (.ok (some 2, frame) after) := by
  obtain ⟨program, warnings, linked, counted⟩ := counting_runs
  obtain ⟨description, resolved, parsed, meant, lowered, -⟩ := link_eq_ok linked
  obtain ⟨-, keeps⟩ := description.lower_keeps_routines (σ := Bench) resolved program meant lowered
  refine ⟨description, resolved, program, parsed, meant, lowered, ?_⟩
  split at counted
  case h_1 value frame after ended =>
    obtain rfl := counted
    exact ⟨frame, after, ((keeps 1 (.function 0) [0] _ rfl).1 _).mp ⟨30, ended, nofun⟩⟩
  case h_2 => exact nomatch counted

end Coro
