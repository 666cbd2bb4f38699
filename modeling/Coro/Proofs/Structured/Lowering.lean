import Coro.Proofs.Program.Lowering
import Coro.Proofs.Structured.Flattening

/-!
State machines do what the statements of coroutines do.

Both sides keep the same machine here: states are numbers, and the local variables of coroutines are
static ones. What is shown is that jumps between labels, and going on at a point, are the ways
through statements.
-/

namespace Coro

variable {valued : Bool} {id : CoroutineId} {locals : List Local} {body : List Stmt}
  {fuel rounds : Nat}

namespace Exec

variable {σ : Type} [Host σ] {program : Program} {callees larger : Callees σ}
  {self : Option CoroutineId} {code : Code}

/-- Following the rest of some code does no more than some steps. -/
def NoMore (program : Program) (callees : Callees σ) (self : Option CoroutineId) (code : Code)
    (fuel : Nat) (steps : BodyStep σ Nat (Option Int64)) (rest : Code) : Prop :=
  BodyStep.Approximates (follow program callees self code fuel rest) steps

/-- Following the rest of some code for long enough does no less than some steps. -/
def NoLess (program : Program) (callees : Callees σ) (self : Option CoroutineId) (code : Code)
    (_ : Nat) (steps : BodyStep σ Nat (Option Int64)) (rest : Code) : Prop :=
  ∃ enough, ∀ fuel ≥ enough, ∀ larger : Callees σ, callees.Approximates larger →
    BodyStep.Approximates steps (follow program larger self code fuel rest)

/-- Every instruction does no more than what it means. -/
theorem noMore_tracks (same : callees.Approximates larger) :
    Tracks (actions program larger self) code (NoMore program callees self code) where
  done := by
    intro fuel
    cases fuel with
    | zero => exact .outOfFuel _
    | succ fuel => exact .refl _
  exhausted := .outOfFuel _
  less related := (follow_approximates_succ _ _).trans related
  instr := by
    intro fuel next rest goto instr onNext onJump
    cases fuel with
    | zero => exact .outOfFuel _
    | succ fuel =>
      rw [NoMore, follow_succ]
      exact instr.meaning_approximates (actions_approximates same)
        ((follow_approximates_succ _ _).trans onNext)
        fun label jumps => (follow_approximates_succ _ _).trans (onJump label jumps)
  label := by
    intro fuel steps rest label related
    rw [NoMore, follow_succ]
    exact related

/-- Every instruction does no less than what it means. -/
theorem noLess_tracks (program : Program) (callees : Callees σ) (self : Option CoroutineId)
    (code : Code) :
    Tracks (actions program callees self) code (NoLess program callees self code) where
  done := by
    refine ⟨1, fun fuel enough larger _ => ?_⟩
    obtain ⟨less, rfl⟩ := Nat.exists_eq_add_of_le' enough
    exact .refl _
  exhausted := ⟨0, fun _ _ _ _ => .outOfFuel _⟩
  less related := related
  instr := by
    intro fuel next rest goto instr onNext onJump
    obtain ⟨first, onNext⟩ := onNext
    -- Where there is no jump, nothing is needed for its label.
    obtain ⟨second, onJump⟩ : ∃ enough, ∀ label, instr.target? = some label →
        ∀ fuel ≥ enough, ∀ larger : Callees σ, callees.Approximates larger →
          BodyStep.Approximates (goto label) (follow program larger self code fuel
            (code.from label)) := by
      cases jumps : instr.target? with
      | none => exact ⟨0, nofun⟩
      | some label =>
        obtain ⟨enough, related⟩ := onJump label jumps
        refine ⟨enough, ?_⟩
        rintro _ ⟨rfl⟩
        exact related
    refine ⟨max first second + 1, fun fuel enough larger same => ?_⟩
    obtain ⟨less, rfl⟩ : ∃ less, fuel = less + 1 := ⟨fuel - 1, by omega⟩
    rw [follow_succ]
    exact instr.meaning_approximates (actions_approximates same)
      (onNext less (by omega) larger same)
      fun label jumps => onJump label jumps less (by omega) larger same
  label := by
    intro fuel steps rest label related
    obtain ⟨first, related⟩ := related
    refine ⟨first + 1, fun fuel enough larger same => ?_⟩
    obtain ⟨less, rfl⟩ : ∃ less, fuel = less + 1 := ⟨fuel - 1, by omega⟩
    rw [follow_succ]
    exact related less (by omega) larger same

end Exec

open Exec

/-- What is enough for each of some numbers, is so for all of them at some size. -/
theorem exists_enough {holds : Nat → Nat → Prop} {bound : Nat}
    (each : ∀ id < bound, ∃ enough, ∀ fuel ≥ enough, holds id fuel) :
    ∃ enough, ∀ fuel ≥ enough, ∀ id < bound, holds id fuel := by
  induction bound with
  | zero => exact ⟨0, fun _ _ _ => nofun⟩
  | succ bound ih =>
    obtain ⟨first, early⟩ := ih fun id small => each id (Nat.lt_succ_of_lt small)
    obtain ⟨second, last⟩ := each bound (Nat.lt_succ_self bound)
    refine ⟨max first second, fun fuel enough id small => ?_⟩
    rcases Nat.lt_succ_iff_lt_or_eq.mp small with before | rfl
    · exact early fuel (by omega) id before
    · exact last fuel (by omega)

/-- Coroutines whose states are numbers and whose local variables are static ones. -/
def Program.world {σ : Type} [Host σ] (program : Program) (model : Model) : World σ Nat where
  model := program.model
  routine callees := actions program callees none
  coroutine callees id :=
    (actions program callees (some id)).through (model.hoistOwn id)
  point? id := do
    let machine ← require program.coroutines[id]?
    return machine.pointAt? (← Exec.state id)

namespace Model

variable {σ : Type} [Host σ] {model : Model} {program : Program}
  (lowered : model.LowersTo program) {coroutine : Coroutine}
  {relates : Nat → BodyStep σ Nat (Option Int64) → Code → Prop} {callees larger : Callees σ}

include lowered

theorem coroutineContext_matches (callees : Callees σ) (id : CoroutineId) :
    (model.coroutineContext id).Matches (actions program callees (some id)) where
  parameters := by
    rw [actions, lowered.hoisted]
    rfl
  static _ := rfl
  finish := nofun

theorem routineContext_matches (callees : Callees σ) :
    model.routineContext.Matches (actions program callees none) where
  parameters := by
    rw [actions, lowered.hoisted]
    rfl
  static _ := rfl
  finish _ := by
    simp only [actions]
    rfl

/-- The code of a coroutine does what its statements do. -/
theorem coroutine_tracks {callees : Callees σ}
    (tracks :
      Tracks (actions program callees (some id)) (model.machineOf id coroutine).code relates)
    (formed : coroutine.WellFormed model.shapes id) (enough : fuel ≤ rounds - 1)
    (point : Option Point)
    (within : ∀ target, point = some target → target < Stmt.pointCounts coroutine.body) :
    relates fuel (((program.world model).coroutine callees id).runFrom rounds coroutine.body point)
      ((point.map (model.machineOf id coroutine).code.atPoint).getD
        (model.machineOf id coroutine).code) :=
  tracks.runFrom_tracks (coroutineContext_matches lowered callees id) enough rfl
    (tracks.next .finish rfl tracks.done) formed.body.statements point within

/-- The code of any other body does what its statements do. -/
theorem routine_tracks {callees : Callees σ}
    (tracks :
      Tracks (actions program callees none) (model.routineContext.codes none 0 0 body) relates)
    (formed : BodyWellFormed model.shapes none valued locals body) (enough : fuel ≤ rounds - 1) :
    relates fuel (((program.world model).routine callees).runFrom rounds body none)
      (model.routineContext.codes none 0 0 body) := by
  have same := routineContext_matches lowered callees
  have runs := tracks.runFrom_tracks same enough (List.append_nil _).symm
    (by simpa [same.finish rfl] using tracks.done) formed.statements none nofun
  have kept : (actions program callees none).through model.routineContext.rename =
      actions program callees none := Actions.through_id _
  rwa [kept] at runs

/-- The code of a body without a state does no more than its statements. -/
theorem runBody_noMore (same : callees.Approximates larger)
    (formed : BodyWellFormed model.shapes none valued locals body) (fuel : Nat)
    (args : List Int64) :
    Approximates
      (runBody program fuel callees locals (model.routineContext.codes none 0 0 body) args)
      ((program.world model).runBody (fuel + 1) larger locals body args) := by
  have small : fuel ≤ fuel + 1 - 1 := Nat.le_refl fuel
  have runs := routine_tracks lowered (noMore_tracks same) formed small
  exact .bind (.enter (runs _)) fun _ => .refl _

/-- The code of a body without a state does no less than its statements. -/
theorem runBody_noLess (callees : Callees σ)
    (formed : BodyWellFormed model.shapes none valued locals body) (rounds : Nat) :
    ∃ enough, ∀ fuel ≥ enough, ∀ larger, callees.Approximates larger → ∀ args,
      Approximates
        ((program.world model).runBody rounds callees locals body args)
        (runBody program fuel larger locals (model.routineContext.codes none 0 0 body)
          args) := by
  obtain ⟨enough, runs⟩ := routine_tracks lowered (noLess_tracks program callees none _) formed
    (Nat.zero_le (rounds - 1))
  exact ⟨enough, fun fuel large larger same args =>
    .bind (.enter (runs fuel large larger same _)) fun _ => .refl _⟩

/-- A step of a state machine, in terms of the point at which it goes on. -/
theorem runCoroutine_eq (found : model.coroutines[id]? = some coroutine)
    (fuel : Nat) (callees : Callees σ) :
    runCoroutine program fuel callees id = (do
      let machine := model.machineOf id coroutine
      let point := machine.pointAt? (← Exec.state id)
      let _ ← enter (run program callees (some id) machine.code fuel
        ((point.map machine.code.atPoint).getD machine.code) (.enter [] []))) := by
  have made : program.coroutines[id]? = some (model.machineOf id coroutine) := by
    simp [lowered.coroutines, found]
  simp only [runCoroutine, made, require, pure_bind, resumeCode_machineOf]

/-- A step through the statements of a coroutine, in terms of the same point. -/
theorem world_runCoroutine_eq (found : model.coroutines[id]? = some coroutine)
    (rounds : Nat) (callees : Callees σ) :
    (program.world model).runCoroutine rounds callees id = (do
      let point := (model.machineOf id coroutine).pointAt? (← Exec.state id)
      let _ ← enter ((((program.world model).coroutine callees id).runFrom rounds
        coroutine.body point).run (.enter [] []))) := by
  have made : program.coroutines[id]? = some (model.machineOf id coroutine) := by
    simp [lowered.coroutines, found]
  have known : program.model.coroutines[id]? = some coroutine := by
    rw [lowered.hoisted]
    exact found
  simp [World.runCoroutine, Program.world, made, known, require]

/-- A coroutine that is not known can neither be run nor carried out. -/
theorem runCoroutine_unknown (missing : model.coroutines[id]? = none) (fuel rounds : Nat)
    (callees larger : Callees σ) :
    runCoroutine program fuel callees id = throw .dangling ∧
      (program.world model).runCoroutine rounds larger id = throw .dangling := by
  have unmade : program.coroutines[id]? = none := by simp [lowered.coroutines, missing]
  have unknown : program.model.coroutines[id]? = none := by
    rw [lowered.hoisted]
    exact missing
  constructor
  · simp only [runCoroutine, unmade, require]
    rfl
  · simp only [World.runCoroutine, Program.world, unknown, require]
    rfl

/-- A step of a state machine does no more than its statements. -/
theorem runCoroutine_noMore (formed : model.WellFormed) (same : callees.Approximates larger)
    (fuel : Nat) (id : CoroutineId) :
    Approximates (runCoroutine program fuel callees id)
      ((program.world model).runCoroutine (fuel + 1) larger id) := by
  cases found : model.coroutines[id]? with
  | none =>
    obtain ⟨stuck, lost⟩ := runCoroutine_unknown lowered found fuel (fuel + 1) callees larger
    rw [stuck, lost]
    exact .refl _
  | some coroutine =>
    rw [runCoroutine_eq lowered found, world_runCoroutine_eq lowered found]
    refine .bind (.refl _) fun state => ?_
    have small : fuel ≤ fuel + 1 - 1 := Nat.le_refl fuel
    have runs := coroutine_tracks lowered (noMore_tracks same)
      (formed.coroutines id coroutine found) small
      ((model.machineOf id coroutine).pointAt? state)
      (fun target known => length_points_machineOf model id coroutine ▸
        StateMachine.lt_of_pointAt? known)
    exact .bind (.enter (runs _)) fun _ => .refl _

/-- A step of a state machine does no less than its statements. -/
theorem runCoroutine_noLess (formed : model.WellFormed) (callees : Callees σ) (rounds : Nat)
    (id : CoroutineId) :
    ∃ enough, ∀ fuel ≥ enough, ∀ larger, callees.Approximates larger →
      Approximates ((program.world model).runCoroutine rounds callees id)
        (runCoroutine program fuel larger id) := by
  cases found : model.coroutines[id]? with
  | none =>
    refine ⟨0, fun fuel _ larger _ => ?_⟩
    obtain ⟨stuck, lost⟩ := runCoroutine_unknown lowered found fuel rounds larger callees
    rw [stuck, lost]
    exact .refl _
  | some coroutine =>
    have tracked := coroutine_tracks lowered (noLess_tracks program callees (some id) _)
      (formed.coroutines id coroutine found) (Nat.zero_le (rounds - 1))
    -- There are as many ways to go on as the coroutine has points, and its beginning.
    obtain ⟨first, start⟩ := tracked none nofun
    obtain ⟨second, others⟩ := exists_enough fun (target : Nat) (small :
      target < Stmt.pointCounts coroutine.body) => tracked (some target) (by
        rintro _ ⟨rfl⟩
        exact small)
    refine ⟨max first second, fun fuel enough larger same => ?_⟩
    rw [runCoroutine_eq lowered found, world_runCoroutine_eq lowered found]
    refine .bind (.refl _) fun state => ?_
    cases goesOn : (model.machineOf id coroutine).pointAt? state with
    | none => exact .bind (.enter (start fuel (by omega) larger same _)) fun _ => .refl _
    | some target =>
      have small := StateMachine.lt_of_pointAt? goesOn
      rw [length_points_machineOf] at small
      exact .bind (.enter (others fuel (by omega) target small larger same _)) fun _ => .refl _

/-- Functions that are known have code, and a call runs or carries it out. -/
theorem runFunction_eq {id : FunctionId} {function : Function}
    (found : model.functions[id]? = some function) (fuel : Nat) (callees : Callees σ)
    (args : List Int64) :
    runFunction program fuel callees id args = (do
        let value ← runBody program fuel callees function.locals
          (model.routineContext.codes none 0 0 function.body) (args.take function.arity)
        return value.getD 0) ∧
      (program.world model).runFunction fuel callees id args = (do
        let value ← (program.world model).runBody fuel callees function.locals function.body
          (args.take function.arity)
        return value.getD 0) := by
  have known : program.model.functions[id]? = some function := by
    rw [lowered.hoisted]
    exact found
  have made : program.functions[id]? =
      some (model.routineContext.codes none 0 0 function.body) := by
    simp [lowered.functions, found]
  constructor
  · simp [runFunction, known, made, require]
  · have same : (program.world model : World σ Nat).model.functions[id]? = some function := known
    simp [World.runFunction, same, require]

/-- A function that is not known can neither be run nor carried out. -/
theorem runFunction_unknown {id : FunctionId} (missing : model.functions[id]? = none)
    (fuel : Nat) (callees : Callees σ) (args : List Int64) :
    runFunction program fuel callees id args = throw .dangling ∧
      (program.world model).runFunction fuel callees id args = throw .dangling := by
  have unknown : program.model.functions[id]? = none := by
    rw [lowered.hoisted]
    exact missing
  constructor
  · simp only [runFunction, unknown, require]
    rfl
  · simp only [World.runFunction, Program.world, unknown, require]
    rfl

/-- The code of a function does no more than its statements. -/
theorem runFunction_noMore (formed : model.WellFormed) (same : callees.Approximates larger)
    (fuel : Nat) (id : FunctionId) (args : List Int64) :
    Approximates (runFunction program fuel callees id args)
      ((program.world model).runFunction (fuel + 1) larger id args) := by
  cases found : model.functions[id]? with
  | none =>
    rw [(runFunction_unknown lowered found fuel callees args).1,
      (runFunction_unknown lowered found (fuel + 1) larger args).2]
    exact .refl _
  | some function =>
    rw [(runFunction_eq lowered found fuel callees args).1,
      (runFunction_eq lowered found (fuel + 1) larger args).2]
    have body := (formed.functions function (List.mem_of_getElem? found)).body
    exact .bind (runBody_noMore lowered same body fuel _) fun _ => .refl _

/-- The code of a function does no less than its statements. -/
theorem runFunction_noLess (formed : model.WellFormed) (callees : Callees σ) (rounds : Nat)
    (id : FunctionId) :
    ∃ enough, ∀ fuel ≥ enough, ∀ larger, callees.Approximates larger → ∀ args,
      Approximates ((program.world model).runFunction rounds callees id args)
        (runFunction program fuel larger id args) := by
  cases found : model.functions[id]? with
  | none =>
    refine ⟨0, fun fuel _ larger _ args => ?_⟩
    rw [(runFunction_unknown lowered found fuel larger args).1,
      (runFunction_unknown lowered found rounds callees args).2]
    exact .refl _
  | some function =>
    have body := (formed.functions function (List.mem_of_getElem? found)).body
    obtain ⟨enough, runs⟩ := runBody_noLess lowered callees body rounds
    refine ⟨enough, fun fuel large larger same args => ?_⟩
    rw [(runFunction_eq lowered found fuel larger args).1,
      (runFunction_eq lowered found rounds callees args).2]
    exact .bind (runs fuel large larger same _) fun _ => .refl _

variable (formed : model.WellFormed)

include formed

/-- Code that is started inside other code does no more than statements that are. -/
theorem callees_noMore (fuel levels : Nat) :
    (Exec.callees program fuel levels : Callees σ).Approximates
      ((program.world model).callees (fuel + 1) levels) := by
  induction levels with
  | zero => exact ⟨fun _ _ => .refl _, fun _ => .refl _⟩
  | succ levels ih =>
    exact ⟨runFunction_noMore lowered formed ih fuel, runCoroutine_noMore lowered formed ih fuel⟩

/-- Code that is started inside other code does no less than statements that are. -/
theorem callees_noLess (rounds levels : Nat) :
    ∃ enough, ∀ fuel ≥ enough,
      ((program.world model).callees rounds levels : Callees σ).Approximates
        (Exec.callees program fuel levels) := by
  induction levels with
  | zero => exact ⟨0, fun _ _ => ⟨fun _ _ => .refl _, fun _ => .refl _⟩⟩
  | succ levels ih =>
    obtain ⟨inner, same⟩ := ih
    let callees : Callees σ := (program.world model).callees rounds levels
    obtain ⟨first, functions⟩ := exists_enough fun id (_ : id < model.functions.length) =>
      runFunction_noLess lowered formed callees rounds id
    obtain ⟨second, coroutines⟩ := exists_enough fun id (_ : id < model.coroutines.length) =>
      runCoroutine_noLess lowered formed callees rounds id
    refine ⟨max inner (max first second), fun fuel enough => ⟨fun id args => ?_, fun id => ?_⟩⟩
    · by_cases known : id < model.functions.length
      · exact functions fuel (by omega) id known _ (same fuel (by omega)) args
      · have missing := List.getElem?_eq_none_iff.mpr (Nat.le_of_not_lt known)
        let inside : Callees σ := Exec.callees program fuel levels
        have stuck := (runFunction_unknown lowered missing fuel inside args).1
        have lost := (runFunction_unknown lowered missing rounds callees args).2
        simp only [World.callees, Exec.callees]
        rw [stuck, lost]
        exact .refl _
    · by_cases known : id < model.coroutines.length
      · exact coroutines fuel (by omega) id known _ (same fuel (by omega))
      · have missing := List.getElem?_eq_none_iff.mpr (Nat.le_of_not_lt known)
        let inside : Callees σ := Exec.callees program fuel levels
        obtain ⟨stuck, lost⟩ := runCoroutine_unknown lowered missing fuel rounds inside callees
        simp only [World.callees, Exec.callees]
        rw [stuck, lost]
        exact .refl _

/-- A step of a state machine does no less than a step through its statements. -/
theorem step_noLess (rounds : Nat) (id : CoroutineId) :
    ∃ enough, ∀ fuel ≥ enough,
      Approximates ((program.world model).step rounds id : Exec σ Unit)
        (Exec.step program fuel id) := by
  let callees : Callees σ := (program.world model).callees rounds maxDepth
  obtain ⟨first, inner⟩ := callees_noLess (σ := σ) lowered formed rounds maxDepth
  obtain ⟨second, outer⟩ := runCoroutine_noLess lowered formed callees rounds id
  refine ⟨max first second, fun fuel enough => ?_⟩
  exact outer fuel (by omega) _ (inner fuel (by omega))

theorem steps_noMore (fuel : Nat) (ids : List CoroutineId) :
    Approximates (σ := σ) (ids.forM (Exec.step program fuel))
      (ids.forM ((program.world model).step (fuel + 1))) :=
  .forM fun id _ =>
    runCoroutine_noMore lowered formed (callees_noMore lowered formed fuel maxDepth) fuel id

/-- Steps of state machines do no less than steps through their statements. -/
theorem steps_noLess (rounds : Nat) (ids : List CoroutineId) :
    ∃ enough, ∀ fuel ≥ enough,
      Approximates (σ := σ) (ids.forM ((program.world model).step rounds))
        (ids.forM (Exec.step program fuel)) := by
  induction ids with
  | nil => exact ⟨0, fun _ _ => .refl _⟩
  | cons id rest ih =>
    obtain ⟨first, one⟩ := step_noLess (σ := σ) lowered formed rounds id
    obtain ⟨second, others⟩ := ih
    refine ⟨max first second, fun fuel enough => ?_⟩
    exact (one fuel (by omega)).bind fun _ => others fuel (by omega)

end Model

end Coro
